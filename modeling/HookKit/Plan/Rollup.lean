import HookKit.Plan.HookSteps

/-!
# What a settled result says

The roll-up after a commit callback, seen from the result it leaves: which answers of the engine it
believes, and which of them can be read off the result again.

* `Capabilities.Declares` — every effect that was observed was declared.
* `verdictOf` — what the verification of a hook answered.
* `RolledUp`, `finishCommitAttempt_rolledUp` — the result, given the engine's answers.
-/

set_option autoImplicit false

namespace HookKit

variable {ε : Type} (engines : EngineRef → Engine ε)

/-! ## Effects -/

/-- Every commit effect among `effects` is declared. -/
def Capabilities.Declares (caps : Capabilities) (effects : Mask) : Prop :=
  effects &&& ~~~caps.commitEffects = 0

instance (caps : Capabilities) (effects : Mask) : Decidable (caps.Declares effects) :=
  inferInstanceAs (Decidable (_ = _))

theorem validateCommitEffects_declared {hook : Hook} {sink : Sink} {out : HookResult}
    (h : (hook.caps engines).Declares sink.observedEffects) :
    validateCommitEffects engines hook sink out = (true, out) := by
  rw [validateCommitEffects]
  exact if_pos h

theorem validateCommitEffects_undeclared {hook : Hook} {sink : Sink} {out : HookResult}
    (h : ¬(hook.caps engines).Declares sink.observedEffects) :
    (validateCommitEffects engines hook sink out).1 = false := by
  rw [validateCommitEffects]
  exact congrArg Prod.fst (if_neg h)

/-- The result differs in what it says about verification and errors only. -/
def HookResult.Annotates (out out' : HookResult) : Prop :=
  ∃ verified domain code message, out' = { out with
    verified := verified, errorDomain := domain, errorCode := code, errorMessage := message }

theorem validateCommitEffects_annotates (hook : Hook) (sink : Sink) (out : HookResult) :
    out.Annotates (validateCommitEffects engines hook sink out).2 := by
  rw [validateCommitEffects]
  split
  · exact ⟨_, _, _, _, rfl⟩
  · exact ⟨_, _, _, _, rfl⟩

/-! ## The roll-up -/

/-- The engine reported a complete mutation, recorded all its artifacts and did nothing it had not
declared. -/
structure Trusted (engines : EngineRef → Engine ε) (hook : Hook) (mutation : Mutation)
    (sink : Sink) : Prop where
  complete : mutation = .complete
  recorded : sink.recordFailed = false
  declared : (hook.caps engines).Declares sink.observedEffects

instance (hook : Hook) (mutation : Mutation) (sink : Sink) :
    Decidable (Trusted engines hook mutation sink) :=
  decidable_of_iff (mutation = .complete ∧ sink.recordFailed = false ∧
      (hook.caps engines).Declares sink.observedEffects)
    ⟨fun h ↦ ⟨h.1, h.2.1, h.2.2⟩, fun h ↦ ⟨h.complete, h.recorded, h.declared⟩⟩

/-- The mutation the core believes in after the roll-up. -/
theorem rollUp_complete (runtime : RuntimeId) (hook : Hook) (out : HookResult)
    (artifactCount : Nat) (mutation : Mutation) (sink : Sink) (w : World ε) :
    (rollUp engines runtime hook out artifactCount mutation sink w).1 = .complete ↔
      Trusted engines hook mutation sink := by
  rw [rollUp]
  dsimp only
  by_cases hdeclared : (hook.caps engines).Declares sink.observedEffects
  · rw [validateCommitEffects_declared engines hdeclared, if_pos rfl]
    constructor
    · intro h
      split at h
      · cases h
      · rename_i hlost
        refine ⟨h, ?_, hdeclared⟩
        rw [← Bool.not_eq_true]
        exact fun hfailed ↦ hlost ⟨hfailed, h⟩
    · intro h
      rw [if_neg fun hlost ↦ ?_]
      · exact h.complete
      · rw [h.recorded] at hlost
        cases hlost.1
  · rw [validateCommitEffects_undeclared engines hdeclared, if_neg Bool.false_ne_true]
    exact ⟨by simp, fun h ↦ absurd h.declared hdeclared⟩

/-- The core believes that nothing was changed only where the engine says so and shows no other
sign of it. -/
theorem rollUp_none (runtime : RuntimeId) (hook : Hook) (out : HookResult)
    (artifactCount : Nat) (mutation : Mutation) (sink : Sink) (w : World ε)
    (h : (rollUp engines runtime hook out artifactCount mutation sink w).1 = .none) :
    mutation = .none ∧ (hook.caps engines).Declares sink.observedEffects := by
  rw [rollUp] at h
  dsimp only at h
  by_cases hdeclared : (hook.caps engines).Declares sink.observedEffects
  · rw [validateCommitEffects_declared engines hdeclared, if_pos rfl] at h
    split at h
    · cases h
    · exact ⟨h, hdeclared⟩
  · rw [validateCommitEffects_undeclared engines hdeclared, if_neg Bool.false_ne_true] at h
    cases h

/-- What the result reports of the attempt itself. -/
theorem rollUp_result (runtime : RuntimeId) (hook : Hook) (out : HookResult)
    (artifactCount : Nat) (mutation : Mutation) (sink : Sink) (w : World ε) :
    let r := (rollUp engines runtime hook out artifactCount mutation sink w).2
    r.observedCommitEffects = sink.observedEffects ∧
      r.observedPrepareEffects = out.observedPrepareEffects := by
  rw [rollUp]
  dsimp only
  obtain ⟨verified, domain, code, message, hout⟩ := validateCommitEffects_annotates engines hook
    sink out
  rw [hout]
  split <;> exact ⟨rfl, rfl⟩

/-! ## Verification -/

/-- What the verification of the hook answers: the verdict of the group where there is one, else
the engine's own. -/
def verdictOf (hook : Hook) (group : Option VerifyAnswer) (w : World ε) : VerifyResult :=
  (group.getD ((hook.engine engines).verifyAnswer hook w.env).1).result

/-- What verification leaves of the ledger, the mutation and the result. -/
structure Verified (engines : EngineRef → Engine ε) (hook : Hook) (ledger : Ledger)
    (artifactStart : Nat) (mutation : Mutation) (out : HookResult) (group : Option VerifyAnswer)
    (w : World ε) (ledger' : Ledger) (mutation' : Mutation) (out' : HookResult) : Prop where
  result : out.Annotates out'
  believed : mutation' = mutation ∨ mutation = .complete ∧ mutation' = .unknown
  /-- A mutation stays complete only when nobody answered that it is not there. -/
  trusted : mutation' = .complete → hook.matchedEngine ≠ none →
    verdictOf engines hook group w ≠ .failed
  verified : out'.verified = true ↔ mutation = .complete ∧ hook.matchedEngine ≠ none ∧
    verdictOf engines hook group w = .ok ∧ artifactStart ≤ ledger.count
  marked : out'.verified = true →
    ledger.markVerified artifactStart (ledger.count - artifactStart) = some ledger'
  unmarked : out'.verified = false → ledger' = ledger

theorem Ledger.markVerified_rest {l : Ledger} {start : Nat} :
    (l.markVerified start (l.count - start)).isSome ↔ start ≤ l.count := by
  rw [Ledger.markVerified]
  split
  · rename_i h
    rcases h with h | h
    · exact ⟨nofun, fun h' ↦ absurd h (not_lt.mpr h')⟩
    · exact absurd h (lt_irrefl _)
  · rename_i h
    rw [not_or] at h
    exact ⟨fun _ ↦ not_lt.mp h.1, fun _ ↦ rfl⟩

theorem applyVerification_verified (hook : Hook) (ledger : Ledger) (artifactStart : Nat)
    (mutation : Mutation) (out : HookResult) (group : Option VerifyAnswer) (w : World ε) :
    let r := applyVerification engines hook ledger artifactStart mutation out group w
    Verified engines hook ledger artifactStart mutation out group w r.1 r.2.1 r.2.2.1 := by
  unfold applyVerification
  dsimp only
  split
  · rename_i hskipped
    refine ⟨⟨_, _, _, _, rfl⟩, .inl rfl, ?_, ?_, by simp, fun _ ↦ rfl⟩
    · intro hcomplete hmatched
      exact absurd hskipped (not_or.mpr ⟨not_not.mpr hcomplete, hmatched⟩)
    · refine ⟨by simp, fun h ↦ absurd hskipped (not_or.mpr ⟨not_not.mpr h.1, h.2.1⟩)⟩
  · rename_i hasked
    rw [not_or, not_not] at hasked
    obtain ⟨rfl, hmatched⟩ := hasked
    have hverdict : (verifyCall engines hook group w).1.result =
        verdictOf engines hook group w := by
      cases group <;> rfl
    unfold verifyCall at hverdict
    split
    · rename_i heq
      have hanswer := hverdict.symm.trans heq
      refine ⟨⟨_, _, _, _, rfl⟩, .inl rfl, ?_, ⟨by simp, ?_⟩, by simp, fun _ ↦ rfl⟩
      · rw [hanswer]
        exact fun _ _ ↦ by simp
      · rw [hanswer]
        exact fun h ↦ absurd h.2.2.1 (by simp)
    · rename_i heq
      have hanswer := hverdict.symm.trans heq
      have hrest := @Ledger.markVerified_rest ledger artifactStart
      cases hmark : ledger.markVerified artifactStart (ledger.count - artifactStart) with
      | some ledger' =>
        rw [hmark] at hrest
        refine ⟨⟨_, _, _, _, rfl⟩, .inl rfl, ?_,
          ⟨fun _ ↦ ⟨rfl, hmatched, hanswer, hrest.mp rfl⟩, fun _ ↦ rfl⟩, fun _ ↦ hmark, by simp⟩
        rw [hanswer]
        exact fun _ _ ↦ by simp
      | none =>
        rw [hmark] at hrest
        refine ⟨⟨_, _, _, _, rfl⟩, .inr ⟨rfl, rfl⟩, by rintro ⟨⟩, ⟨by rintro ⟨⟩, ?_⟩,
          by rintro ⟨⟩, fun _ ↦ rfl⟩
        exact fun h ↦ absurd (hrest.mpr h.2.2.2) (by simp)
    · rename_i heq
      have hanswer := hverdict.symm.trans heq
      refine ⟨⟨_, _, _, _, rfl⟩, .inr ⟨rfl, rfl⟩, by rintro ⟨⟩, ⟨by rintro ⟨⟩, ?_⟩,
          by rintro ⟨⟩, fun _ ↦ rfl⟩
      rw [hanswer]
      exact fun h ↦ absurd h.2.2.1 (by simp)

/-! ## The whole roll-up -/

/-- What the roll-up leaves of a hook, given the answers of its engine. -/
structure RolledUp (engines : EngineRef → Engine ε) (hook : Hook) (out : HookResult)
    (ledger : Ledger) (artifactStart : Nat) (mutation : Mutation) (sink : Sink)
    (group : Option VerifyAnswer) (compensated : Bool) (w : World ε) (hook' : Hook)
    (ledger' : Ledger) : Prop where
  prepareEffects : hook'.result.observedPrepareEffects = out.observedPrepareEffects
  commitEffects : hook'.result.observedCommitEffects = sink.observedEffects
  none : hook'.result.mutation = .none →
    mutation = .none ∧ (hook.caps engines).Declares sink.observedEffects
  active : hook'.result.outcome = .active → hook'.result.mutation = .complete ∧
    Trusted engines hook mutation sink ∧
      (hook.matchedEngine ≠ .none → verdictOf engines hook group w ≠ .failed)
  compensated : hook'.result.outcome = .compensated ↔ compensated = true
  verified : hook'.result.verified = true ↔ Trusted engines hook mutation sink ∧
    hook.matchedEngine ≠ .none ∧ verdictOf engines hook group w = .ok ∧ artifactStart ≤ ledger.count
  marked : hook'.result.verified = true →
    ledger.markVerified artifactStart (ledger.count - artifactStart) = some ledger'
  unmarked : hook'.result.verified = false → ledger' = ledger

theorem recordOwnership_result (hook : Hook) (out : HookResult) (mutation : Mutation)
    (published : Ptr) (w : World ε) :
    let r := recordOwnership engines hook out mutation published w
    r.1 = mutation ∧ r.2.1 = out ∨ mutation = .complete ∧ r.1 = .unknown ∧
      ∃ domain code message, r.2.1 = HookResult.withError { out with mutation := .unknown } domain
        code message := by
  rw [recordOwnership]
  dsimp only
  split
  · rename_i hcomplete
    split
    · exact .inl ⟨rfl, rfl⟩
    · exact .inr ⟨hcomplete, rfl, _, _, _, rfl⟩
  · exact .inl ⟨rfl, rfl⟩

theorem retainOriginal_result (hook : Hook) (out : HookResult) (published : Ptr) (w : World ε) :
    ∃ installedId available, (retainOriginal hook out published w).2.1 =
      { out with installedId := installedId, originalAvailable := available } := by
  rw [retainOriginal]
  split
  · exact ⟨_, _, rfl⟩
  · dsimp only
    split
    · exact ⟨_, _, rfl⟩
    · exact ⟨_, _, rfl⟩

theorem Mutation.outcome_eq_active {mutation : Mutation} (h : mutation.outcome = .active) :
    mutation = .complete := by
  cases mutation <;> first | rfl | cases h

theorem Mutation.outcome_ne_compensated (mutation : Mutation) :
    mutation.outcome ≠ .compensated := by
  cases mutation <;> exact nofun

theorem finishCommitAttempt_rolledUp (path : Path) (runtime : RuntimeId) (hook : Hook)
    (out : HookResult) (ledger : Ledger) (artifactStart : Nat) (mutation : Mutation) (sink : Sink)
    (group : Option VerifyAnswer) (owned compensated : Bool) (w : World ε) :
    let r := finishCommitAttempt engines path runtime hook out ledger artifactStart mutation sink
      group owned compensated w
    RolledUp engines hook out ledger artifactStart mutation sink group compensated w r.1 r.2.1 := by
  rw [finishCommitAttempt]
  have hcomplete := rollUp_complete engines runtime hook out (ledger.count - artifactStart) mutation
    sink w
  have hnone := rollUp_none engines runtime hook out (ledger.count - artifactStart) mutation sink w
  have heffects := rollUp_result engines runtime hook out (ledger.count - artifactStart) mutation
    sink w
  generalize rollUp engines runtime hook out (ledger.count - artifactStart) mutation sink w = rolled
    at hcomplete hnone heffects ⊢
  obtain ⟨m₁, out₁⟩ := rolled
  dsimp only at hcomplete hnone heffects ⊢
  have hverified := applyVerification_verified engines hook ledger artifactStart m₁ out₁ group w
  generalize applyVerification engines hook ledger artifactStart m₁ out₁ group w = verified
    at hverified ⊢
  obtain ⟨ledger₂, m₂, out₂, w₂⟩ := verified
  dsimp only at hverified ⊢
  -- the mutation and the result before the outcome is written
  obtain ⟨m₃, out₃, w₃, howned, hout₃, hm₃, hresult₃⟩ :
      ∃ m₃ out₃ w₃,
        (if owned then
          recordOwnership engines hook { out₂ with mutation := m₂ } m₂ sink.publishedOriginal w₂
        else (m₂, { out₂ with mutation := m₂ }, w₂)) = (m₃, out₃, w₃) ∧
        out₃.mutation = m₃ ∧ (m₃ = m₂ ∨ m₂ = .complete ∧ m₃ = .unknown) ∧
        out₃.observedPrepareEffects = out₂.observedPrepareEffects ∧
        out₃.observedCommitEffects = out₂.observedCommitEffects ∧
          out₃.verified = out₂.verified := by
    cases owned with
    | false => exact ⟨_, _, _, rfl, rfl, .inl rfl, rfl, rfl, rfl⟩
    | true =>
      have hcases := recordOwnership_result engines hook { out₂ with mutation := m₂ } m₂
        sink.publishedOriginal w₂
      generalize recordOwnership engines hook { out₂ with mutation := m₂ } m₂ sink.publishedOriginal
        w₂ = recorded at hcases ⊢
      obtain ⟨m₃, out₃, w₃⟩ := recorded
      dsimp only at hcases
      refine ⟨m₃, out₃, w₃, rfl, ?_⟩
      rcases hcases with ⟨rfl, rfl⟩ | ⟨hm₂, rfl, domain, code, message, rfl⟩
      · exact ⟨rfl, .inl rfl, rfl, rfl, rfl⟩
      · exact ⟨rfl, .inr ⟨hm₂, rfl⟩, rfl, rfl, rfl⟩
  rw [howned]
  dsimp only
  obtain ⟨hprepare₃, hcommit₃, hverified₃⟩ := hresult₃
  obtain ⟨verified, domain, code, message, hout₂⟩ := hverified.result
  -- the outcome, and the fields it is written beside
  obtain ⟨hook', out', w', hrest, hprepare, hcommit, hmutation, hverdict, hcompensated, hactive⟩ :
      ∃ hook' out' w',
        (if compensated then (hook, { out₃ with outcome := .compensated }, w₃)
          else if m₃ = .complete then
            retainOriginal hook { out₃ with outcome := .active } sink.publishedOriginal w₃
          else (hook, { out₃ with outcome := m₃.outcome }, w₃)) = (hook', out', w') ∧
        out'.observedPrepareEffects = out₃.observedPrepareEffects ∧
        out'.observedCommitEffects = out₃.observedCommitEffects ∧ out'.mutation = out₃.mutation ∧
        out'.verified = out₃.verified ∧ (out'.outcome = .compensated ↔ compensated = true) ∧
        (out'.outcome = .active → m₃ = .complete) := by
    cases compensated with
    | true => exact ⟨_, _, _, rfl, rfl, rfl, rfl, rfl, ⟨fun _ ↦ rfl, fun _ ↦ rfl⟩, by simp⟩
    | false =>
      by_cases hm : m₃ = .complete
      · obtain ⟨installedId, available, hretained⟩ := retainOriginal_result hook
          { out₃ with outcome := .active } sink.publishedOriginal w₃
        rw [if_neg Bool.false_ne_true, if_pos hm]
        generalize retainOriginal hook { out₃ with outcome := .active } sink.publishedOriginal w₃ =
          retained at hretained ⊢
        obtain ⟨hook', out', w'⟩ := retained
        dsimp only at hretained
        subst hretained
        exact ⟨_, _, _, rfl, rfl, rfl, rfl, rfl, ⟨by simp, by simp⟩, fun _ ↦ hm⟩
      · rw [if_neg Bool.false_ne_true, if_neg hm]
        exact ⟨_, _, _, rfl, rfl, rfl, rfl, rfl,
          ⟨fun h ↦ absurd h (Mutation.outcome_ne_compensated m₃), by simp⟩,
          fun h ↦ Mutation.outcome_eq_active h⟩
  rw [hrest]
  dsimp only [settle_eq]
  have htrusted : m₃ = .complete → Trusted engines hook mutation sink ∧
      (hook.matchedEngine ≠ .none → verdictOf engines hook group w ≠ .failed) := by
    intro hm
    have hm₂ : m₂ = .complete := by
      rcases hm₃ with rfl | ⟨-, h⟩
      · exact hm
      · rw [h] at hm
        cases hm
    refine ⟨hcomplete.mp ?_, hverified.trusted hm₂⟩
    rcases hverified.believed with h | ⟨h, -⟩
    · rw [← h, hm₂]
    · exact h
  refine ⟨?_, ?_, ?_, ?_, hcompensated, ?_, ?_, ?_⟩
  · rw [hprepare, hprepare₃, hout₂]
    exact heffects.2
  · rw [hcommit, hcommit₃, hout₂]
    exact heffects.1
  · intro h
    rw [hmutation, hout₃] at h
    refine hnone ?_
    rcases hm₃ with rfl | ⟨-, h'⟩
    · rcases hverified.believed with h' | ⟨-, h'⟩
      · rw [← h', h]
      · rw [h'] at h
        cases h
    · rw [h'] at h
      cases h
  · intro h
    have hm := hactive h
    exact ⟨hmutation.trans (hout₃.trans hm), htrusted hm⟩
  · rw [hverdict, hverified₃, hverified.verified, hcomplete]
  · rw [hverdict, hverified₃]
    exact hverified.marked
  · rw [hverdict, hverified₃]
    exact hverified.unmarked

/-! ## The checks before it -/

/-- The checks before the roll-up leave a report of no mutation as it is, and make none. -/
theorem recoverMutation_none (hook : Hook) (owner : Option Owner) (mutation : Mutation)
    (sink : Sink) (out : HookResult)
    (h : (recoverMutation engines hook owner mutation sink out).1 = .none) : mutation = .none := by
  by_contra hne
  rw [recoverMutation] at h
  generalize hm₁ : (if sink.recordFailed = true ∧ mutation = .complete then Mutation.unknown
    else mutation) = m₁ at h
  have hne₁ : m₁ ≠ .none := by
    rw [← hm₁]
    split
    · simp
    · exact hne
  dsimp only at h
  generalize hr : (if m₁ = .complete then
      (if (validateCommitEffects engines hook sink out).1 = true then m₁ else .unknown,
        (validateCommitEffects engines hook sink out).2)
    else (m₁, out)) = r at h
  have hne₂ : r.1 ≠ .none := by
    rw [← hr]
    split
    · dsimp only
      split
      · exact hne₁
      · simp
    · exact hne₁
  split at h
  · split at h
    · cases h
    · exact hne₂ h
  · exact hne₂ h

/-- They write about errors only. -/
theorem recoverMutation_annotates (hook : Hook) (owner : Option Owner) (mutation : Mutation)
    (sink : Sink) (out : HookResult) :
    out.Annotates (recoverMutation engines hook owner mutation sink out).2 := by
  have hvalidate := validateCommitEffects_annotates engines hook sink out
  rw [recoverMutation]
  generalize (if sink.recordFailed = true ∧ mutation = .complete then Mutation.unknown
    else mutation) = m₁
  generalize hr : (if m₁ = .complete then
      (if (validateCommitEffects engines hook sink out).1 = true then m₁ else .unknown,
        (validateCommitEffects engines hook sink out).2)
    else (m₁, out)) = r
  have hannotates : out.Annotates r.2 := by
    rw [← hr]
    split
    · exact hvalidate
    · exact ⟨_, _, _, _, rfl⟩
  dsimp only
  split
  · split
    · obtain ⟨verified, domain, code, message, heq⟩ := hannotates
      rw [heq]
      exact ⟨_, _, _, _, rfl⟩
    · exact hannotates
  · exact hannotates

end HookKit
