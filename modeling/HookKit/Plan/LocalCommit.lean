import HookKit.Plan.Local
import HookKit.Plan.Wave

/-!
# Commits of engines that keep to their targets

A commit changes what the engines work on, and how it settles its hooks tells where.

* `Outcome.mutated` — the outcomes that own up to a change.
* `commitOneHook_changes` — a hook that is committed by itself.
* `answerWave_covered`, `commitGroup_changes` — a wave: whatever its callbacks change belongs to a
  member whose mutation is not taken back until the member is settled.
-/

set_option autoImplicit false

namespace HookKit

open Loop

variable {ε α β : Type} {view : ε → α → β} {region : Target → Set α}
  {engines : EngineRef → Engine ε}

/-- The outcomes of a hook whose target may have been changed. -/
def Outcome.mutated : Outcome → Bool
  | .active | .failedPartial | .failedUnknown | .compensated => true
  | _ => false

theorem Mutation.outcome_mutated {mutation : Mutation} (h : mutation ≠ .none) :
    mutation.outcome.mutated = true := by
  cases mutation with
  | none => exact absurd rfl h
  | _ => rfl

/-- One of the hooks answers for a change: the change is in its region, it is among `after` settled
with a mutation, and the history tells so. -/
def AnswersFor (engines : EngineRef → Engine ε) (region : Target → Set α) (hooks after : List Hook)
    (history : List Event) (a : α) : Prop :=
  ∃ hook ∈ hooks, ∃ hook' ∈ after, hook.Same hook' ∧ a ∈ region hook.spec.target ∧
    hook'.result.outcome.mutated = true ∧ hook'.Recorded engines history

/-! ## One hook -/

/-- A mutation that was not nothing is not forgotten. -/
theorem finishCommitAttempt_mutated (engines : EngineRef → Engine ε) (path : Path)
    (runtime : RuntimeId) (hook : Hook) (out : HookResult) (ledger : Ledger) (artifactStart : Nat)
    {mutation : Mutation} (hmutation : mutation ≠ .none) (sink : Sink)
    (group : Option VerifyAnswer) (owned compensated : Bool) (w : World ε) :
    (finishCommitAttempt engines path runtime hook out ledger artifactStart mutation sink group
      owned compensated w).1.result.outcome.mutated = true := by
  rw [finishCommitAttempt]
  have hrolled := rollUp_mutation engines runtime hook out
    (ledger.count - artifactStart) mutation sink w
  generalize rollUp engines runtime hook out (ledger.count - artifactStart) mutation sink w = rolled
    at hrolled ⊢
  obtain ⟨m₁, out₁⟩ := rolled
  have hverified := (applyVerification_spec engines hook ledger artifactStart m₁ out₁ group w).1
  dsimp only at hrolled ⊢
  generalize applyVerification engines hook ledger artifactStart m₁ out₁ group w = verified
    at hverified ⊢
  obtain ⟨ledger₂, m₂, out₂, w₂⟩ := verified
  dsimp only at hverified ⊢
  have hm₁ : m₁ ≠ .none := by
    rcases hrolled with rfl | rfl
    · exact hmutation
    · decide
  have hm₂ : m₂ ≠ .none := by
    rcases hverified with rfl | rfl
    · exact hm₁
    · decide
  have hrecorded : (if owned then
      recordOwnership engines hook { out₂ with mutation := m₂ } m₂ sink.publishedOriginal w₂
      else (m₂, { out₂ with mutation := m₂ }, w₂)).1 ≠ .none := by
    split
    · rcases recordOwnership_result engines hook { out₂ with mutation := m₂ } m₂
        sink.publishedOriginal w₂ with ⟨h, -⟩ | ⟨-, h, -⟩
      · rw [h]
        exact hm₂
      · rw [h]
        decide
    · exact hm₂
  generalize (if owned then
      recordOwnership engines hook { out₂ with mutation := m₂ } m₂ sink.publishedOriginal w₂
      else (m₂, { out₂ with mutation := m₂ }, w₂)) = recorded at hrecorded ⊢
  obtain ⟨m₃, out₃, w₃⟩ := recorded
  dsimp only at hrecorded ⊢
  cases compensated with
  | true => rfl
  | false =>
    rw [if_neg (by decide)]
    split
    · have houtcome := (retainOriginal_spec hook { out₃ with outcome := .active }
        sink.publishedOriginal w₃).2.2.1
      generalize retainOriginal hook { out₃ with outcome := .active } sink.publishedOriginal w₃ = r
        at houtcome ⊢
      obtain ⟨hook', out', w'⟩ := r
      show out'.outcome.mutated = true
      rw [houtcome]
      rfl
    · exact Mutation.outcome_mutated hrecorded

section Single

variable (hlocal : ∀ ref, (engines ref).Local view region)

include hlocal

theorem verifyAnswer_shows (hook : Hook) (env : Env ε) :
    view ((hook.engine engines).verifyAnswer hook env).2.host = view env.host := by
  have hengine := hook.engine_local hlocal
  rw [Engine.verifyAnswer]
  split
  · exact hengine.verifyOneCtx _ ‹_› _ _ env
  · split
    · exact hengine.verifyOne _ ‹_› _ env
    · rfl

theorem applyVerification_shows (hook : Hook) (ledger : Ledger) (artifactStart : Nat)
    (mutation : Mutation) (out : HookResult) (group : Option VerifyAnswer) (w : World ε) :
    (applyVerification engines hook ledger artifactStart mutation out group w).2.2.2.shows view =
      w.shows view := by
  have hcall : (verifyCall engines hook group w).2.shows view = w.shows view := by
    cases group with
    | some answer => rfl
    | none => exact verifyAnswer_shows hlocal hook w.env
  unfold verifyCall at hcall
  unfold applyVerification
  dsimp only
  split
  · rfl
  split
  · exact hcall
  · split <;> exact hcall
  · exact hcall

omit hlocal in
theorem recordOwnership_shows (hook : Hook) (out : HookResult) (mutation : Mutation)
    (published : Ptr) (w : World ε) :
    (recordOwnership engines hook out mutation published w).2.2.shows view = w.shows view := by
  have hrecord := w.recordOwner_shows view hook.targetKey (hook.caps engines).engineId
    hook.spec.replacement published
  rw [recordOwnership]
  split
  · split <;> rename_i heq <;> rw [heq] at hrecord <;> exact hrecord
  · rfl

omit hlocal in
theorem retainOriginal_shows (hook : Hook) (out : HookResult) (published : Ptr) (w : World ε) :
    (retainOriginal hook out published w).2.2.shows view = w.shows view := by
  rw [retainOriginal]
  split
  · rfl
  · have hcreate := w.freshId.2.createInstalled_shows view w.freshId.1 published
      { out with installedId := w.freshId.1, originalAvailable := true }
    dsimp only
    split <;> rename_i heq <;> rw [heq] at hcreate <;> exact hcreate

theorem finishCommitAttempt_shows (path : Path) (runtime : RuntimeId) (hook : Hook)
    (out : HookResult) (ledger : Ledger) (artifactStart : Nat) (mutation : Mutation) (sink : Sink)
    (group : Option VerifyAnswer) (owned compensated : Bool) (w : World ε) :
    (finishCommitAttempt engines path runtime hook out ledger artifactStart mutation sink group
      owned compensated w).2.2.shows view = w.shows view := by
  rw [finishCommitAttempt]
  generalize rollUp engines runtime hook out (ledger.count - artifactStart) mutation sink w = rolled
  obtain ⟨m₁, out₁⟩ := rolled
  have hverified := applyVerification_shows hlocal hook ledger artifactStart m₁ out₁ group w
  dsimp only
  generalize applyVerification engines hook ledger artifactStart m₁ out₁ group w = verified
    at hverified ⊢
  obtain ⟨ledger₂, m₂, out₂, w₂⟩ := verified
  dsimp only at hverified ⊢
  have hrecorded : (if owned then
      recordOwnership engines hook { out₂ with mutation := m₂ } m₂ sink.publishedOriginal w₂
      else (m₂, { out₂ with mutation := m₂ }, w₂)).2.2.shows view = w.shows view := by
    split
    · exact (recordOwnership_shows hook _ m₂ _ w₂).trans hverified
    · exact hverified
  generalize (if owned then
      recordOwnership engines hook { out₂ with mutation := m₂ } m₂ sink.publishedOriginal w₂
      else (m₂, { out₂ with mutation := m₂ }, w₂)) = recorded at hrecorded ⊢
  obtain ⟨m₃, out₃, w₃⟩ := recorded
  dsimp only at hrecorded ⊢
  split
  · exact hrecorded
  split
  · exact (retainOriginal_shows hook _ _ w₃).trans hrecorded
  · exact hrecorded

/-- An engine that is asked to commit one hook changes the hook's region, and says that it did. -/
theorem dispatchCommit_changes (path : Path) (runtime : RuntimeId) (hook : Hook) (sink : Sink)
    (w : World ε) {a : α}
    (h : (dispatchCommit engines path runtime hook sink w).2.2.shows view a ≠ w.shows view a) :
    a ∈ region hook.spec.target ∧
      (dispatchCommit engines path runtime hook sink w).1 ≠ .none := by
  have hengine := hook.engine_local hlocal
  rw [dispatchCommit] at h ⊢
  cases hanswer : (hook.engine engines).commitAnswer hook sink w.env with
  | none =>
    rw [hanswer] at h
    exact absurd rfl h
  | some given =>
    obtain ⟨answer, env⟩ := given
    rw [hanswer] at h
    dsimp only at h ⊢
    rw [Sink.write_shows] at h
    rw [Engine.commitAnswer] at hanswer
    split at hanswer
    · rename_i commit hcommit
      have hchanged := hengine.commitOneCtx commit hcommit hook.spec hook.preparedState sink w.env a
      rw [Option.some.inj hanswer] at hchanged
      exact hchanged h
    · split at hanswer
      · rename_i commit hcommit
        have hchanged := hengine.commitOne commit hcommit hook.spec sink w.env a
        rw [Option.some.inj hanswer] at hchanged
        exact hchanged h
      · cases hanswer

/-- **A hook that is committed by itself** changes nothing outside its region, and nothing at all
unless its outcome says so. -/
theorem commitOneHook_changes (path : Path) (runtime : RuntimeId) (planId ownerId : Id)
    (continuation : Option ContinuationInfo) (hook : Hook) (out : HookResult) (ledger : Ledger)
    (w : World ε) {a : α}
    (h : (commitOneHook engines path runtime planId ownerId continuation hook out ledger
      w).2.2.shows view a ≠ w.shows view a) :
    a ∈ region hook.spec.target ∧ (commitOneHook engines path runtime planId ownerId continuation
      hook out ledger w).1.result.outcome.mutated = true := by
  rw [commitOneHook] at h ⊢
  dsimp only at h ⊢
  split at h
  · exact absurd rfl h
  rename_i hallowed
  rw [if_neg hallowed]
  rw [finishCommitAttempt_shows hlocal] at h
  obtain ⟨hregion, hmutation⟩ := dispatchCommit_changes hlocal _ _ _ _ _ h
  refine ⟨hregion, finishCommitAttempt_mutated _ _ _ _ _ _ _ (fun hnone ↦ hmutation ?_) _ _ _ _ _⟩
  exact recoverMutation_none engines hook _ _ _ _ hnone

end Single

/-! ## Waves -/

/-- The member is about the target of its hook. -/
def Member.Fits (m : Member) : Prop := m.op.spec = m.hook.spec

/-- A change is the member's: it is in the region of its target, and the member says that it has
mutated something. -/
def Member.Covers (region : Target → Set α) (m : Member) (a : α) : Prop :=
  a ∈ region m.hook.spec.target ∧ m.op.mutation ≠ .none

/-- Whatever differs between two moments is a member's. -/
def Covered (view : ε → α → β) (region : Target → Set α) (members : List Member)
    (w w' : World ε) : Prop :=
  ∀ a, w'.shows view a ≠ w.shows view a → ∃ m ∈ members, m.Covers region a

/-- A member that says that it has mutated something keeps saying so. -/
structure Member.Keeps (m m' : Member) : Prop where
  hook : m'.hook = m.hook
  fits : m.Fits → m'.Fits
  mutation : m.op.mutation ≠ .none → m'.op.mutation ≠ .none

theorem Member.Keeps.refl (m : Member) : m.Keeps m := ⟨rfl, id, id⟩

theorem Member.Keeps.covers {m m' : Member} (h : m.Keeps m') {a : α}
    (hcovers : m.Covers region a) : m'.Covers region a :=
  ⟨h.hook ▸ hcovers.1, h.mutation hcovers.2⟩

/-- What is a member's stays a member's. -/
theorem Covered.keeps {members members' : List Member} {w w' : World ε}
    (h : Covered view region members w w') (hkeeps : List.Forall₂ Member.Keeps members members') :
    Covered view region members' w w' := by
  intro a ha
  obtain ⟨m, hm, hcovers⟩ := h a ha
  obtain ⟨i, hi⟩ := List.getElem?_of_mem hm
  obtain ⟨m', hm', hkeep⟩ := Pointwise.getElem?_left hkeeps hi
  exact ⟨m', List.mem_of_getElem? hm', hkeep.covers hcovers⟩

theorem Covered.quiet (members : List Member) {w w' : World ε}
    (h : w'.shows view = w.shows view) : Covered view region members w w' :=
  fun a ha ↦ absurd (congrFun h a) ha

theorem Covered.trans {members : List Member} {w w₁ w' : World ε}
    (h : Covered view region members w w₁) (h' : Covered view region members w₁ w') :
    Covered view region members w w' := by
  intro a ha
  by_cases hfirst : w₁.shows view a = w.shows view a
  · rw [← hfirst] at ha
    exact h' a ha
  · exact h a hfirst

theorem applyWrites_shows (view : ε → α → β) (writes : Nat → OperationWrites) (offset : Nat)
    (members : List Member) (w : World ε) :
    (applyWrites writes offset members w).2.shows view = w.shows view := by
  induction members generalizing offset w with
  | nil => rfl
  | cons member rest ih => exact (ih _ _).trans (Sink.write_shows view _ _ w)

/-- What a callback writes into a member, and what it cannot write. -/
theorem applyWrites_getElem? (writes : Nat → OperationWrites) (offset : Nat)
    (members : List Member) (w : World ε) {i : Nat} {m : Member} (h : members[i]? = some m) :
    ∃ m', (applyWrites writes offset members w).1[i]? = some m' ∧ m'.hook = m.hook ∧
      m'.op.spec = m.op.spec ∧ m'.op.mutation = (writes (offset + i)).mutation := by
  induction members generalizing offset w i with
  | nil => cases h
  | cons member rest ih =>
    cases i with
    | zero =>
      cases h
      exact ⟨_, rfl, rfl, rfl, rfl⟩
    | succ i =>
      obtain ⟨m', hm', hhook, hspec, hmutation⟩ := ih (offset + 1)
        (member.op.sink.write (writes offset).sink w).2 h
      refine ⟨m', hm', hhook, hspec, ?_⟩
      rw [hmutation, Nat.add_assoc, Nat.add_comm 1 i]

theorem applyWrites_length (writes : Nat → OperationWrites) (offset : Nat)
    (members : List Member) (w : World ε) :
    (applyWrites writes offset members w).1.length = members.length :=
  ((applyWrites_spec (Q := fun _ ↦ True) writes offset members w).1.length_eq).symm

theorem callGroup_shows (callback : List Operation → Env ε → GroupAnswer × Env ε)
    (members : List Member) (w : World ε) :
    (callGroup callback members w).2.2.shows view =
      view (callback (members.map Member.op) w.env).2.host :=
  applyWrites_shows view _ _ _ _

/-- A callback that takes no mutation back. -/
theorem callGroup_keeps {callback : List Operation → Env ε → GroupAnswer × Env ε}
    {members : List Member} {w : World ε}
    (h : (callback (members.map Member.op) w.env).1.KeepsMutations (members.map Member.op)) :
    List.Forall₂ Member.Keeps members (callGroup callback members w).2.1 := by
  rw [List.forall₂_iff_get]
  refine ⟨(applyWrites_length _ _ _ _).symm, fun i hi hi' ↦ ?_⟩
  have hget := List.getElem?_eq_getElem hi
  obtain ⟨m', hm', hhook, hspec, hmutation⟩ := applyWrites_getElem?
    (callback (members.map Member.op) w.env).1.writes 0 members
    (w.setEnv (callback (members.map Member.op) w.env).2) hget
  obtain rfl : m' = (callGroup callback members w).2.1.get ⟨i, hi'⟩ :=
    Option.some.inj (hm'.symm.trans (List.getElem?_eq_getElem hi'))
  refine ⟨hhook, fun hfits ↦ ?_, fun hne ↦ ?_⟩
  · rw [Member.Fits, hspec, hhook]
    exact hfits
  · rw [hmutation, Nat.zero_add]
    exact h i _ (by rw [List.getElem?_map, hget]; rfl) hne

/-- Whatever a callback writes, its members are about the same targets. -/
theorem callGroup_fits (callback : List Operation → Env ε → GroupAnswer × Env ε)
    {members : List Member} (hfits : ∀ m ∈ members, m.Fits) (w : World ε) :
    ∀ m ∈ (callGroup callback members w).2.1, m.Fits := by
  intro m' hm'
  obtain ⟨i, hi⟩ := List.getElem?_of_mem hm'
  have hlt : i < members.length := by
    rw [← applyWrites_length (callback (members.map Member.op) w.env).1.writes 0 members
      (w.setEnv (callback (members.map Member.op) w.env).2)]
    exact (List.getElem?_eq_some_iff.mp hi).1
  obtain ⟨m'', hm'', hhook, hspec, -⟩ := applyWrites_getElem?
    (callback (members.map Member.op) w.env).1.writes 0 members
    (w.setEnv (callback (members.map Member.op) w.env).2) (List.getElem?_eq_getElem hlt)
  obtain rfl := Option.some.inj (hi.symm.trans hm'')
  rw [Member.Fits, hspec, hhook]
  exact hfits _ (List.getElem_mem hlt)

theorem failMembers_keeps {mutation : Mutation} (hmutation : mutation ≠ .none) (status : Status)
    (message : String) (members : List Member) :
    List.Forall₂ Member.Keeps members (failMembers mutation status message members) := by
  rw [failMembers, List.forall₂_map_right_iff]
  exact Pointwise.refl (fun m ↦ ⟨rfl, id, fun _ ↦ hmutation⟩) members

/-- The members' fit survives whatever keeps the members. -/
theorem fits_keeps {members members' : List Member} (hfits : ∀ m ∈ members, m.Fits)
    (hkeeps : List.Forall₂ Member.Keeps members members') : ∀ m ∈ members', m.Fits := by
  intro m' hm'
  obtain ⟨m, hm, hkeep⟩ := Pointwise.mem_right hkeeps hm'
  exact hkeep.fits (hfits m hm)

section Wave

variable {engine : Engine ε} (hlocal : engine.Local view region)

include hlocal

theorem revalidateWave_shows {members : List Member} (hfits : ∀ m ∈ members, m.Fits)
    (w : World ε) :
    (revalidateWave engine members w).2.2.shows view = w.shows view ∧
      ∀ m ∈ (revalidateWave engine members w).2.1, m.Fits := by
  rw [revalidateWave]
  split
  · exact ⟨rfl, hfits⟩
  · rename_i revalidate hrevalidate
    exact ⟨(callGroup_shows revalidate members w).trans
      (hlocal.revalidateGroupCtx revalidate hrevalidate _ w.env), callGroup_fits revalidate hfits w⟩

omit hlocal in
theorem logCommitCalls_shows (runtime : RuntimeId) (members : List Member) (w : World ε) :
    (logCommitCalls engines runtime members w).shows view = w.shows view := by
  induction members generalizing w with
  | nil => rfl
  | cons member rest ih => exact ih _

/-- What a grouped commit changes belongs to members, who own up to it unless it is refused. -/
theorem callGroup_commits {commit : List Operation → Env ε → GroupAnswer × Env ε}
    (hcommit : engine.commitGroupCtx = some commit) {members : List Member}
    (hfits : ∀ m ∈ members, m.Fits) (w : World ε) {a : α}
    (h : (callGroup commit members w).2.2.shows view a ≠ w.shows view a) :
    ∃ m ∈ (callGroup commit members w).2.1, a ∈ region m.hook.spec.target ∧
      ((callGroup commit members w).1 = true → m.op.mutation ≠ .none) := by
  rw [callGroup_shows] at h
  obtain ⟨i, op, hop, hregion, howned⟩ := hlocal.commitGroupCtx commit hcommit _ _ a h
  rw [List.getElem?_map, Option.map_eq_some_iff] at hop
  obtain ⟨m, hm, rfl⟩ := hop
  obtain ⟨m', hm', hhook, -, hmutation⟩ := applyWrites_getElem?
    (commit (members.map Member.op) w.env).1.writes 0 members
    (w.setEnv (commit (members.map Member.op) w.env).2) hm
  refine ⟨m', List.mem_of_getElem? hm', ?_, fun haccepted ↦ ?_⟩
  · rw [hhook, ← hfits m (List.mem_of_getElem? hm)]
    exact hregion
  · rw [hmutation, Nat.zero_add]
    exact howned haccepted

/-- Revalidation and the commit callback of a wave. -/
theorem commitWave_covered (engines : EngineRef → Engine ε) (runtime : RuntimeId)
    {members : List Member} (hfits : ∀ m ∈ members, m.Fits) (w : World ε) :
    Covered view region (commitWave engines engine runtime members w).2.1 w
        (commitWave engines engine runtime members w).2.2 ∧
      ∀ m ∈ (commitWave engines engine runtime members w).2.1, m.Fits := by
  obtain ⟨hshows, hfits₁⟩ := revalidateWave_shows hlocal hfits w
  rw [commitWave]
  generalize revalidateWave engine members w = revalidated at hshows hfits₁ ⊢
  obtain ⟨ok, members₁, w₁⟩ := revalidated
  dsimp only at hshows hfits₁ ⊢
  have hfail : ∀ mutation status message (members : List Member), (∀ m ∈ members, m.Fits) →
      ∀ m ∈ failMembers mutation status message members, m.Fits := by
    intro mutation status message members hfits m hm
    obtain ⟨m', hm', rfl⟩ := List.mem_map.mp hm
    exact hfits m' hm'
  split
  · exact ⟨.quiet _ hshows, hfail _ _ _ _ hfits₁⟩
  split
  · exact ⟨.quiet _ hshows, hfail _ _ _ _ hfits₁⟩
  rename_i commit hcommit
  have hfits₂ := callGroup_fits commit hfits₁
    (logCommitCalls engines runtime members₁ w₁)
  have hchanges : ∀ a, _ → _ := fun a ↦ callGroup_commits (a := a) hlocal hcommit hfits₁
    (logCommitCalls engines runtime members₁ w₁)
  rw [logCommitCalls_shows, hshows] at hchanges
  generalize callGroup commit members₁ (logCommitCalls engines runtime members₁ w₁) = called
    at hfits₂ hchanges ⊢
  obtain ⟨accepted, members₂, w₂⟩ := called
  dsimp only at hfits₂ hchanges ⊢
  split
  · rename_i haccepted
    refine ⟨fun a ha ↦ ?_, hfits₂⟩
    obtain ⟨m, hm, hregion, howned⟩ := hchanges a ha
    exact ⟨m, hm, hregion, howned haccepted⟩
  · refine ⟨fun a ha ↦ ?_, hfail _ _ _ _ hfits₂⟩
    obtain ⟨m, hm, hregion, -⟩ := hchanges a ha
    -- nobody knows what a refused commit has done, so every member is marked
    exact ⟨_, List.mem_map_of_mem hm, hregion, by simp⟩

theorem verifyWave_keeps (verdict : WaveVerdict) (members : List Member) (w : World ε) :
    (verifyWave engine verdict members w).2.2.shows view = w.shows view ∧
      List.Forall₂ Member.Keeps members (verifyWave engine verdict members w).2.1 := by
  rw [verifyWave]
  split
  · exact ⟨rfl, Pointwise.refl .refl members⟩
  rename_i verify hverify
  split
  · exact ⟨rfl, Pointwise.refl .refl members⟩
  obtain ⟨hblind, hmutations⟩ := hlocal.verifyGroupCtx verify hverify (members.map Member.op)
  have hshows := (callGroup_shows verify members w).trans (hblind w.env)
  have hkeeps := callGroup_keeps (hmutations w.env)
  generalize callGroup verify members w = called at hshows hkeeps ⊢
  obtain ⟨accepted, members₁, w₁⟩ := called
  dsimp only at hshows hkeeps ⊢
  refine ⟨hshows, ?_⟩
  split
  · exact hkeeps
  · rw [List.forall₂_map_right_iff]
    exact hkeeps.imp fun _ _ h ↦ ⟨h.hook, h.fits, h.mutation⟩

/-- What compensation changes belongs to members that had mutated something, and still say so. -/
theorem compensateWave_covered (verdict : WaveVerdict) (verified : Bool) {members : List Member}
    (hfits : ∀ m ∈ members, m.Fits) (w : World ε) :
    Covered view region (compensateWave engine verdict verified members w).1 w
        (compensateWave engine verdict verified members w).2 ∧
      List.Forall₂ Member.Keeps members
        (compensateWave engine verdict verified members w).1 := by
  have hself : List.Forall₂ Member.Keeps members members := Pointwise.refl .refl members
  rw [compensateWave]
  split
  · exact ⟨.quiet members rfl, hself⟩
  rename_i compensate hcompensate
  split
  · obtain ⟨hmutations, hchanges⟩ :=
      hlocal.compensateGroupCtx compensate hcompensate (members.map Member.op) w.env
    have hcovered : Covered view region members w (callGroup compensate members w).2.2 := by
      intro a ha
      rw [callGroup_shows] at ha
      obtain ⟨i, op, hop, hregion, hmutation⟩ := hchanges a ha
      rw [List.getElem?_map, Option.map_eq_some_iff] at hop
      obtain ⟨m, hm, rfl⟩ := hop
      refine ⟨m, List.mem_of_getElem? hm, ?_, hmutation⟩
      rw [← hfits m (List.mem_of_getElem? hm)]
      exact hregion
    have hkeeps := callGroup_keeps hmutations
    generalize callGroup compensate members w = called at hcovered hkeeps ⊢
    obtain ⟨accepted, members₁, w₁⟩ := called
    dsimp only at hcovered hkeeps ⊢
    have hkeeps' : List.Forall₂ Member.Keeps members (if accepted then members₁
        else members₁.map fun member ↦ { member with
          op := { member.op with compensated := false } }) := by
      split
      · exact hkeeps
      · rw [List.forall₂_map_right_iff]
        exact hkeeps.imp fun _ _ h ↦ ⟨h.hook, h.fits, h.mutation⟩
    exact ⟨hcovered.keeps hkeeps', hkeeps'⟩
  · exact ⟨.quiet members rfl, hself⟩

/-- **The callbacks of a wave** change nothing that is not a member's. -/
theorem answerWave_covered (engines : EngineRef → Engine ε) (runtime : RuntimeId)
    {members : List Member} (hfits : ∀ m ∈ members, m.Fits) (w : World ε) :
    Covered view region (answerWave engines engine runtime members w).members w
      (answerWave engines engine runtime members w).world := by
  obtain ⟨hcommit, hfits₁⟩ := commitWave_covered hlocal engines runtime hfits w
  rw [answerWave]
  generalize commitWave engines engine runtime members w = committed at hcommit hfits₁ ⊢
  obtain ⟨verdict, members₁, w₁⟩ := committed
  dsimp only at hcommit hfits₁ ⊢
  obtain ⟨hshows, hverify⟩ := verifyWave_keeps hlocal verdict members₁ w₁
  generalize verifyWave engine verdict members₁ w₁ = verified at hshows hverify ⊢
  obtain ⟨checked, members₂, w₂⟩ := verified
  dsimp only at hshows hverify ⊢
  obtain ⟨hcompensate, hkeeps⟩ := compensateWave_covered hlocal verdict checked
    (fits_keeps hfits₁ hverify) w₂
  exact ((hcommit.keeps hverify).keeps hkeeps).trans
    ((Covered.quiet _ hshows).trans hcompensate)

end Wave

/-! ## Whole waves -/

section Group

variable (engines)

/-- A member that says that it has mutated something is settled so. -/
theorem finishMembers_mutated (runtime : RuntimeId) (verified : Bool) {members : List Member}
    (ledger : Ledger) (w : World ε) {i : Nat} {m : Member} {hook' : Hook}
    (hm : members[i]? = some m) (hmutation : m.op.mutation ≠ .none)
    (hhook' : (finishMembers engines runtime verified members ledger w).1[i]? = some hook') :
    hook'.result.outcome.mutated = true := by
  induction members generalizing ledger w i with
  | nil => cases hm
  | cons member rest ih =>
    rw [finishMembers] at hhook'
    dsimp only at hhook'
    cases i with
    | zero =>
      cases hm
      cases hhook'
      exact finishCommitAttempt_mutated engines _ _ _ _ _ _ hmutation _ _ _ _ _
    | succ i => exact ih _ _ hm hhook'

theorem recordMembers_shows (view : ε → α → β) (members : List Member) (w : World ε) :
    (recordMembers engines members w).2.shows view = w.shows view := by
  induction members generalizing w with
  | nil => rfl
  | cons member rest ih =>
    have hfirst : (recordMember engines member w).2.shows view = w.shows view := by
      have hrecord := w.recordOwner_shows view member.hook.targetKey
        (member.hook.caps engines).engineId member.hook.spec.replacement
        member.op.sink.publishedOriginal
      rw [recordMember]
      generalize (if member.op.sink.recordFailed = true ∧ member.op.mutation = .complete then
        Mutation.unknown else member.op.mutation) = m₁
      dsimp only
      generalize (if m₁ = .complete then
          (if (validateCommitEffects engines member.hook member.op.sink member.out).1 = true then m₁
            else .unknown,
            (validateCommitEffects engines member.hook member.op.sink member.out).2)
        else (m₁, member.out)) = r
      split
      · split <;> rename_i heq <;> rw [heq] at hrecord <;> exact hrecord
      · rfl
    exact (ih _).trans hfirst

theorem appendMemberLedgers_shows (view : ε → α → β) (members : List Member) (ledger : Ledger)
    (w : World ε) : (appendMemberLedgers members ledger w).2.2.shows view = w.shows view := by
  induction members generalizing ledger w with
  | nil => rfl
  | cons member rest ih =>
    exact (ih _ _).trans
      (congrArg view (Ledger.appendLedger_host ledger member.op.sink.ledger w.env))

theorem allocMembers_shows (view : ε → α → β) (hooks : List Hook) (w : World ε) :
    (allocMembers hooks w).2.shows view = w.shows view := by
  induction hooks generalizing w with
  | nil => rfl
  | cons hook rest ih =>
    have halloc := w.alloc_shows view
    rw [allocMembers]
    split <;> rename_i heq <;> rw [heq] at halloc
    · exact halloc
    · exact (ih _).trans halloc

variable {engines} (hlocal : ∀ ref, (engines ref).Local view region)

include hlocal

theorem finishMembers_shows (runtime : RuntimeId) (verified : Bool) (members : List Member)
    (ledger : Ledger) (w : World ε) :
    (finishMembers engines runtime verified members ledger w).2.2.shows view = w.shows view := by
  induction members generalizing ledger w with
  | nil => rfl
  | cons member rest ih =>
    rw [finishMembers]
    dsimp only
    rw [ih, finishCommitAttempt_shows hlocal]

/-- The settled hooks of a wave answer for what it changed. -/
theorem waveSettled_changes (plan : CommitPlan) (count : Nat) (st : CommitState ε) {a : α}
    (h : (waveSettled engines plan count st).2.2.shows view a ≠ st.world.shows view a) :
    ∃ hook ∈ waveHooks plan count st, ∃ hook' ∈ (waveSettled engines plan count st).1,
      hook.Same hook' ∧ a ∈ region hook.spec.target ∧ hook'.result.outcome.mutated = true := by
  have hengine : (waveEngine engines (waveHooks plan count st)).Local view region := by
    rw [waveEngine]
    cases (waveHooks plan count st).head? with
    | none => exact .absent view region
    | some hook => exact hook.engine_local hlocal
  have hfits : ∀ m ∈ (waveHooks plan count st).map (openOperation plan (waveEngine engines
      (waveHooks plan count st)).revalidateGroupCtx.isNone), m.Fits := by
    intro m hm
    obtain ⟨hook, -, rfl⟩ := List.mem_map.mp hm
    exact Eq.refl hook.spec
  have hcovered := answerWave_covered hengine engines plan.runtime hfits
    (allocMembers (waveHooks plan count st) (st.world.setEnv (st.world.env.allocAll 4).2)).2
  -- after the callbacks nothing changes any more
  have hafter : (waveSettled engines plan count st).2.2.shows view =
      (waveAnswers engines plan count st).world.shows view :=
    (finishMembers_shows hlocal _ _ _ _ _).trans
      ((appendMemberLedgers_shows view _ _ _).trans (recordMembers_shows engines view _ _))
  have hbefore : (allocMembers (waveHooks plan count st)
      (st.world.setEnv (st.world.env.allocAll 4).2)).2.shows view = st.world.shows view :=
    (allocMembers_shows view _ _).trans (congrArg view (st.world.env.allocAll_host 4))
  rw [hafter, ← hbefore] at h
  obtain ⟨m, hm, hregion, hmutation⟩ := hcovered a h
  obtain ⟨i, hi⟩ := List.getElem?_of_mem hm
  -- the member is stored and settled at its place
  obtain ⟨m₁, hm₁, hrecords⟩ := Pointwise.getElem?_left
    (recordMembers_records engines (waveAnswers engines plan count st).members
      (waveAnswers engines plan count st).world) hi
  obtain ⟨m₂, hm₂, hstores⟩ := Pointwise.getElem?_left (appendMemberLedgers_stores
    (recordMembers engines (waveAnswers engines plan count st).members
      (waveAnswers engines plan count st).world).1 st.ledger
    (recordMembers engines (waveAnswers engines plan count st).members
      (waveAnswers engines plan count st).world).2).1 hm₁
  obtain ⟨hook, m', l, w, hook', hsettled⟩ := settledMember_of_stored engines hm₂
  obtain rfl := Option.some.inj (hi.symm.trans hsettled.answeredAt)
  have hmutation₂ : m₂.op.mutation ≠ .none := by
    rcases hsettled.mutation with heq | heq <;> rw [heq]
    · exact hmutation
    · decide
  refine ⟨hook, List.mem_of_getElem? hsettled.hookAt, hook',
    List.mem_of_getElem? hsettled.settledAt, ?_, ?_,
    finishMembers_mutated engines _ _ _ _ hsettled.storedAt hmutation₂ hsettled.settledAt⟩
  · rw [← hsettled.storedHook]
    exact hsettled.rollsUp.same
  · rw [← hsettled.same]
    exact hregion

/-- **A wave**: the hooks of the plan answer for what it changes. -/
theorem commitGroup_changes (plan : CommitPlan) (count : Nat) (st : CommitState ε)
    (hvalid : ∀ i ∈ plan.order, i < st.hooks.length) (hnodup : plan.order.Nodup) {a : α}
    (h : (commitGroup engines plan count st).state.world.shows view a ≠ st.world.shows view a) :
    AnswersFor engines region st.hooks (commitGroup engines plan count st).state.hooks
      (commitGroup engines plan count st).state.world.history a := by
  cases hflow : commitGroup engines plan count st with
  | stop st' =>
    -- a wave that runs out of memory has not reached its engine
    refine absurd (congrFun ?_ a) h
    rw [hflow]
    have hfirst := st.world.env.allocAll_host 4
    rw [commitGroup] at hflow
    split at hflow <;> rename_i heq <;> rw [heq] at hfirst
    · cases hflow
      exact congrArg view hfirst
    rename_i env
    have hsecond := allocMembers_shows view (hooksAt st.hooks ((plan.order.drop st.position).take
      count)) (st.world.setEnv env)
    dsimp only at hflow
    split at hflow <;> rename_i heq <;> rw [heq] at hsecond
    · cases hflow
      exact hsecond.trans (congrArg view hfirst)
    · cases hflow
  | next st' =>
    rw [hflow] at h
    obtain rfl := commitGroup_next engines hflow
    obtain ⟨hook, hhook, hook', hhook', hsame, hregion, hmutated⟩ :=
      waveSettled_changes hlocal plan count st h
    obtain ⟨i, -, hi⟩ := List.mem_filterMap.mp hhook
    refine ⟨hook, List.mem_of_getElem? hi, hook', waveSettled_mem engines hvalid hnodup hhook',
      hsame, hregion, hmutated, .group, ?_⟩
    exact (finishMembers_spec engines plan.runtime (waveAnswers engines plan count st).verified
      (waveStored engines plan count st).1 (waveStored engines plan count st).2.1
      (waveStored engines plan count st).2.2).2.2 hook' hhook'

/-! ## One pass -/

omit hlocal in
theorem markDomainCommitPreflightFailed_shows (generation : Nat) (domain : Id) (hooks : List Hook)
    (w : World ε) :
    (markDomainCommitPreflightFailed engines generation domain hooks w).2.2.shows view =
      w.shows view := by
  induction hooks generalizing w with
  | nil => rfl
  | cons hook rest ih =>
    rw [markDomainCommitPreflightFailed]
    split
    · exact ih _
    · exact ih w

/-- A hook that is not part of a wave. -/
theorem commitSingle_changes (plan : CommitPlan) {index : Nat} {hook : Hook} (st : CommitState ε)
    (hget : st.hooks[index]? = some hook) {a : α}
    (h : (commitSingle engines plan index hook st).world.shows view a ≠ st.world.shows view a) :
    AnswersFor engines region st.hooks (commitSingle engines plan index hook st).hooks
      (commitSingle engines plan index hook st).world.history a := by
  rw [commitSingle] at h ⊢
  split at h
  · exact absurd rfl h
  rename_i hcurrent
  rw [if_neg hcurrent]
  dsimp only at h ⊢
  split at h
  · exact absurd rfl h
  rename_i hready
  rw [if_neg hready]
  have hone := commitOneHook_spec engines .single plan.runtime plan.planId plan.ownerId
    hook.preparedContinuation hook hook.result st.ledger st.world
  obtain ⟨hregion, hmutated⟩ := commitOneHook_changes hlocal _ _ _ _ _ _ _ _ _ h
  obtain ⟨mid, required, published, -, hmid, -, -⟩ := hone.world
  refine ⟨hook, List.mem_of_getElem? hget, _,
    List.mem_set (List.getElem?_eq_some_iff.mp hget).1 _, hone.same, hregion, hmutated, .single,
    required, published, ?_⟩
  show _ ∈ World.history _
  rw [CommitState.settled, CommitState.count, hmid]
  exact List.mem_cons_self

/-- **One pass of the loop in `hk_plan_commit`.** -/
theorem commitIter_changes (plan : CommitPlan) (st : CommitState ε)
    (hvalid : ∀ i ∈ plan.order, i < st.hooks.length) (hnodup : plan.order.Nodup) {a : α}
    (h : (commitIter engines plan st).state.world.shows view a ≠ st.world.shows view a) :
    AnswersFor engines region st.hooks (commitIter engines plan st).state.hooks
      (commitIter engines plan st).state.world.history a := by
  rw [commitIter] at h ⊢
  split at h
  · exact absurd rfl h
  rename_i index horder
  split at h
  · exact absurd rfl h
  rename_i hook hget
  split at h
  · exact absurd rfl h
  rename_i hprepared
  rw [if_neg hprepared]
  dsimp only at h ⊢
  split at h
  · rename_i hmore
    rw [if_pos hmore]
    exact commitGroup_changes hlocal plan _ st hvalid hnodup h
  · rename_i hmore
    rw [if_neg hmore]
    dsimp only [Flow.state_next] at h ⊢
    split at h
    · exact absurd (congrFun (markDomainCommitPreflightFailed_shows _ _ _ _) a) h
    · rename_i hallowed
      exact commitSingle_changes hlocal plan st hget h

omit hlocal in
/-- A hook that has been settled with a mutation stays so. -/
theorem Hook.Commits.mutated {h h' : Hook} (hcommits : h.Commits h')
    (hmutated : h.result.outcome.mutated = true) : h' = h := by
  rcases hcommits.outcome with heq | ⟨hprepared, -⟩
  · exact heq
  · rw [hprepared] at hmutated
    cases hmutated

/-- Whatever the loop changes is in the region of a hook that it leaves settled with a mutation. -/
theorem commitLoop_answers (plan : CommitPlan) {hooks : List Hook} (hnodup : plan.order.Nodup)
    (hvalid : ∀ i ∈ plan.order, i < hooks.length) (w : World ε) {a : α}
    (h : (commitLoop engines plan hooks w).state.world.shows view a ≠ w.shows view a) :
    ∃ hook ∈ (commitLoop engines plan hooks w).state.hooks,
      a ∈ region hook.spec.target ∧ hook.result.outcome.mutated = true := by
  refine And.right (run_invariant (fun st : CommitState ε ↦ st.hooks.length = hooks.length ∧
    (st.world.shows view a ≠ w.shows view a → ∃ hook ∈ st.hooks,
      a ∈ region hook.spec.target ∧ hook.result.outcome.mutated = true)) ?_ _
    ⟨rfl, fun h ↦ absurd rfl h⟩) h
  rintro st - ⟨hlength, hanswered⟩
  obtain ⟨hpass, hlength'⟩ := @commitIter_pass_of_length _ engines _ _ hnodup hvalid _ hlength
  have hvalid' : ∀ i ∈ plan.order, i < st.hooks.length := fun i hi ↦ hlength ▸ hvalid i hi
  refine ⟨hlength', fun hchanged ↦ ?_⟩
  by_cases hpassed : (commitIter engines plan st).state.world.shows view a = st.world.shows view a
  · rw [hpassed] at hchanged
    obtain ⟨hook, hhook, hregion, hmutated⟩ := hanswered hchanged
    obtain ⟨hook', hhook', hcommits⟩ := Pointwise.mem_left (hpass.commits hvalid' hnodup) hhook
    obtain rfl := hcommits.mutated hmutated
    exact ⟨hook', hhook', hregion, hmutated⟩
  · obtain ⟨hook, -, hook', hhook', hsame, hregion, hmutated, -⟩ :=
      commitIter_changes hlocal plan st hvalid' hnodup hpassed
    exact ⟨hook', hhook', hsame.spec ▸ hregion, hmutated⟩

/-- A queued hook. -/
theorem drainOne_changes (runtime : RuntimeId) (ownerId : Id) (hook : Hook) (ledger : Ledger)
    (w : World ε) {a : α}
    (h : (drainOne engines runtime ownerId hook ledger w).2.2.shows view a ≠ w.shows view a) :
    ∃ hook', AnswersFor engines region [hook] [hook']
      (drainOne engines runtime ownerId hook ledger w).2.2.history a := by
  have hprepared := drainPrepare_shows hlocal runtime hook w
  have htouched := (drainPrepare_spec engines runtime hook w).1
  rw [drainOne] at h ⊢
  generalize drainPrepare engines runtime hook w = prepared at h hprepared htouched ⊢
  obtain ⟨result, hook₁, out, w₁⟩ := prepared
  dsimp only at hprepared htouched
  cases result with
  | notApplicable => exact absurd (congrFun hprepared a) h
  | failed =>
    dsimp only at h
    rw [freeHook_shows hlocal] at h
    exact absurd (congrFun hprepared a) h
  | ok =>
    dsimp only at h ⊢
    rw [freeHook_shows hlocal, ← hprepared] at h
    have hone := commitOneHook_spec engines .drain runtime out.planId ownerId none hook₁ out ledger
      w₁
    obtain ⟨hregion, hmutated⟩ := commitOneHook_changes hlocal _ _ _ _ _ _ _ _ _ h
    obtain ⟨mid, required, published, -, hmid, -, -⟩ := hone.world
    refine ⟨_, hook, List.mem_singleton_self hook, _, List.mem_singleton_self _,
      htouched.toSame.trans hone.same, ?_, hmutated, .drain, required, published,
      (freeHook_quiet engines _ _).history.mem_old ?_⟩
    · rw [← htouched.spec]
      exact hregion
    · rw [hmid]
      exact List.mem_cons_self

end Group

end HookKit
