import HookKit.Plan.PrepareSteps
import HookKit.Plan.Commit

/-!
# What a commit does

Everything a pass of the loop in `hk_plan_commit` may do to the hooks of the plan and to the
process.

* `Hook.Commits` — what may become of one hook.
* `CommitPass` — the ways through one pass.
* `CommittedWave` — what a wave leaves.
* `commitLoop_finished` — the loop comes to the end of its order.
* `commitPlan_spec` — what a call leaves of the plan.
-/

set_option autoImplicit false

namespace HookKit

open Loop

variable {ε : Type} (engines : EngineRef → Engine ε)

/-! ## One hook -/

/-- What a commit may make of a hook: it settles prepared hooks, and only active ones are installed.
-/
structure Hook.Commits (h h' : Hook) : Prop extends Hook.Same h h' where
  outcome : h' = h ∨ h.result.outcome = .prepared ∧ h'.result.outcome.isFinal = true
  installed : h'.installed = h.installed ∨ h'.result.outcome = .active

theorem Hook.Commits.refl (h : Hook) : h.Commits h := ⟨.refl h, .inl rfl, .inl rfl⟩

theorem Hook.Commits.trans {h₁ h₂ h₃ : Hook} (h : h₁.Commits h₂) (h' : h₂.Commits h₃) :
    h₁.Commits h₃ := by
  rcases h'.outcome with rfl | ⟨hprepared, hfinal⟩
  · exact h
  · rcases h.outcome with rfl | ⟨-, hfinal'⟩
    · exact h'
    · rw [hprepared] at hfinal'
      cases hfinal'

theorem CommittedOne.commits {engines : EngineRef → Engine ε} {path : Path}
    {runtime : RuntimeId} {hook hook' : Hook}
    {w w' : World ε} (h : CommittedOne engines path runtime hook w hook' w')
    (hprepared : hook.result.outcome = .prepared) : hook.Commits hook' :=
  ⟨h.same, .inr ⟨hprepared, Outcome.isFinal_of_isVerdict h.verdict⟩, h.installed.symm⟩

theorem CommittedOne.adds {engines : EngineRef → Engine ε} {path : Path} {runtime : RuntimeId}
    {hook hook' : Hook} {w w' : World ε} (h : CommittedOne engines path runtime hook w hook' w') :
    w.Adds (fun _ ↦ True) w' := by
  obtain ⟨mid, required, published, hadds, rfl, -, -⟩ := h.world
  exact (hadds.mono fun _ _ ↦ trivial).log trivial

/-- A hook that is settled without asking its engine. -/
theorem Hook.Commits.settled {hook : Hook} (hprepared : hook.result.outcome = .prepared)
    {out : HookResult} (hfinal : out.outcome.isFinal = true) :
    hook.Commits { hook with result := out } :=
  ⟨⟨rfl, rfl, rfl, rfl⟩, .inr ⟨hprepared, hfinal⟩, .inl rfl⟩

theorem preflightResult_outcome (generation : Nat) (result : HookResult) :
    (preflightResult generation result).outcome = .stalePlan ∨
      (preflightResult generation result).outcome = .failedSafe := by
  rw [preflightResult]
  split
  · exact .inl rfl
  · exact .inr rfl

theorem preflightResult_isFinal (generation : Nat) (result : HookResult) :
    (preflightResult generation result).outcome.isFinal = true := by
  rcases preflightResult_outcome generation result with h | h <;> rw [h] <;> rfl

/-- The history tells how the hook was settled. -/
def Hook.Recorded (engines : EngineRef → Engine ε) (hook : Hook) (history : List Event) : Prop :=
  ∃ path required published,
    .commitSettled (hook.settledRecord engines path required published) ∈ history

/-! ## Refusing a domain -/

/-- What a pass that turns `hooks` into `hooks'` may write down: that a prepared hook is handed to
its engine, and how it is settled. -/
def Event.settles (hooks hooks' : List Hook) : Event → Prop
  | .commitCall c => ∃ h ∈ hooks, ∃ h' ∈ hooks', h.Same h' ∧ c.hook = h.hookId ∧
      h.result.outcome = .prepared ∧ h'.result.outcome.isVerdict = true
  | .commitSettled s => ∃ h ∈ hooks, ∃ h' ∈ hooks', h.Same h' ∧ s.hook = h.hookId ∧
      h.result.outcome = .prepared ∧ h'.result.outcome.isFinal = true ∧
      s.outcome = h'.result.outcome
  | .compensateCall .. => True
  | _ => False

theorem Event.settles.mono {hooks hooks' more more' : List Hook} {e : Event}
    (h : e.settles hooks hooks') (hsub : hooks ⊆ more) (hsub' : hooks' ⊆ more') :
    e.settles more more' := by
  cases e with
  | commitCall c =>
    obtain ⟨h, hh, h', hh', hrest⟩ := h
    exact ⟨h, hsub hh, h', hsub' hh', hrest⟩
  | commitSettled s =>
    obtain ⟨h, hh, h', hh', hrest⟩ := h
    exact ⟨h, hsub hh, h', hsub' hh', hrest⟩
  | compensateCall => trivial
  | _ => exact h.elim

/-- A hook is settled without anybody becoming active. -/
def Event.notActive : Event → Prop
  | .commitSettled s => s.outcome ≠ .active
  | .commitCall _ => False
  | _ => True

/-- Every prepared member is settled without an engine, and nobody else changes. -/
theorem markDomainCommitPreflightFailed_spec (generation : Nat) (domain : Id) (hooks : List Hook)
    (w : World ε) :
    List.Forall₂ (fun h h' ↦ h.Commits h' ∧
        (h.spec.domain = some domain → h'.result.outcome ≠ .prepared) ∧
        (h' = h ∨ h'.result.outcome ≠ .active)) hooks
        (markDomainCommitPreflightFailed engines generation domain hooks w).1 ∧
      w.Quiet (fun e ↦ e.settles hooks
          (markDomainCommitPreflightFailed engines generation domain hooks w).1 ∧ e.notActive)
        (markDomainCommitPreflightFailed engines generation domain hooks w).2.2 ∧
      ∀ hook ∈ (markDomainCommitPreflightFailed engines generation domain hooks w).1,
        hook ∈ hooks ∨ hook.Recorded engines
          (markDomainCommitPreflightFailed engines generation domain hooks w).2.2.history := by
  induction hooks generalizing w with
  | nil => exact ⟨.nil, .refl w, fun hook hhook ↦ .inl hhook⟩
  | cons hook rest ih =>
    rw [markDomainCommitPreflightFailed]
    split
    · rename_i hmember
      rw [settle_eq engines]
      dsimp only
      have hfinal := preflightResult_isFinal generation hook.result
      have hne : (preflightResult generation hook.result).outcome ≠ .active := by
        rcases preflightResult_outcome generation hook.result with h | h <;> rw [h] <;> exact nofun
      have hne' : (preflightResult generation hook.result).outcome ≠ .prepared := by
        rcases preflightResult_outcome generation hook.result with h | h <;> rw [h] <;> exact nofun
      obtain ⟨hrest, hworld, hmem⟩ := ih (w.log (.commitSettled (Hook.settledRecord engines .single
        { hook with result := preflightResult generation hook.result } none 0)))
      refine ⟨.cons ⟨.settled hmember.2 hfinal, fun _ ↦ hne', .inr hne⟩ hrest, ?_, ?_⟩
      · refine World.Quiet.trans (World.quiet_log w ?_) (hworld.mono fun e he ↦ ?_)
        · exact ⟨⟨hook, List.mem_cons_self, _, List.mem_cons_self, ⟨rfl, rfl, rfl, rfl⟩, rfl,
            hmember.2, hfinal, rfl⟩, hne⟩
        · exact ⟨he.1.mono (List.subset_cons_self _ _) (List.subset_cons_self _ _), he.2⟩
      · intro h hh
        rcases List.mem_cons.mp hh with rfl | hh
        · exact .inr ⟨.single, none, 0, hworld.history.mem_old List.mem_cons_self⟩
        · exact (hmem h hh).imp_left (List.mem_cons_of_mem hook)
    · rename_i hmember
      obtain ⟨hrest, hworld, hmem⟩ := ih w
      refine ⟨.cons ⟨.refl hook, fun hd hp ↦ hmember ⟨hd, hp⟩, .inl rfl⟩ hrest,
        hworld.mono fun e he ↦
          ⟨he.1.mono (List.subset_cons_self _ _) (List.subset_cons_self _ _), he.2⟩,
        fun h hh ↦ ?_⟩
      rcases List.mem_cons.mp hh with rfl | hh
      · exact .inl List.mem_cons_self
      · exact (hmem h hh).imp_left (List.mem_cons_of_mem hook)

/-! ## Waves -/

/-- The callbacks of a wave change operations; the hook and what its sink requires stay. -/
structure Member.Same (m m' : Member) : Prop where
  hook : m'.hook = m.hook
  required : m'.op.sink.requiredPredecessor = m.op.sink.requiredPredecessor

theorem Member.Same.refl (m : Member) : m.Same m := ⟨rfl, rfl⟩

theorem Member.Same.trans {m₁ m₂ m₃ : Member} (h : m₁.Same m₂) (h' : m₂.Same m₃) : m₁.Same m₃ :=
  ⟨h'.hook.trans h.hook, h'.required.trans h.required⟩

theorem members_refl (members : List Member) : List.Forall₂ Member.Same members members :=
  Pointwise.refl .refl members

theorem members_trans {l l₁ l₂ : List Member} (h : List.Forall₂ Member.Same l l₁)
    (h' : List.Forall₂ Member.Same l₁ l₂) : List.Forall₂ Member.Same l l₂ :=
  Pointwise.trans (fun _ _ _ ↦ Member.Same.trans) h h'

theorem members_map {f : Member → Member} (hf : ∀ m : Member, m.Same (f m))
    (members : List Member) :
    List.Forall₂ Member.Same members (members.map f) := by
  induction members with
  | nil => exact .nil
  | cons m rest ih => exact .cons (hf m) ih

theorem applyWrites_spec {Q : Event → Prop} (writes : Nat → OperationWrites) (offset : Nat)
    (members : List Member) (w : World ε) :
    List.Forall₂ Member.Same members (applyWrites writes offset members w).1 ∧
      w.Quiet Q (applyWrites writes offset members w).2 := by
  induction members generalizing offset w with
  | nil => exact ⟨.nil, .refl w⟩
  | cons member rest ih =>
    have hquiet := Sink.quiet_write (Q := Q) member.op.sink (writes offset).sink w
    have hrequired := Sink.write_requiredPredecessor member.op.sink (writes offset).sink w
    rw [applyWrites]
    dsimp only
    obtain ⟨hrest, hworld⟩ := ih (offset + 1) (member.op.sink.write (writes offset).sink w).2
    exact ⟨.cons ⟨rfl, hrequired⟩ hrest, hquiet.trans hworld⟩

theorem callGroup_spec {Q : Event → Prop}
    (callback : List Operation → Env ε → GroupAnswer × Env ε) (members : List Member)
    (w : World ε) :
    List.Forall₂ Member.Same members (callGroup callback members w).2.1 ∧
      w.Quiet Q (callGroup callback members w).2.2 := by
  obtain ⟨hmembers, hquiet⟩ := applyWrites_spec (Q := Q)
    (w.call (callback (members.map Member.op))).1.writes 0 members
    (w.call (callback (members.map Member.op))).2
  exact ⟨hmembers, (World.quiet_call w _).trans hquiet⟩

theorem failMembers_same (mutation : Mutation) (status : Status) (message : String)
    (members : List Member) :
    List.Forall₂ Member.Same members (failMembers mutation status message members) := by
  refine members_map ?_ members
  exact fun _ ↦ ⟨rfl, rfl⟩

theorem revalidateWave_spec {Q : Event → Prop} (engine : Engine ε) (members : List Member)
    (w : World ε) :
    List.Forall₂ Member.Same members (revalidateWave engine members w).2.1 ∧
      w.Quiet Q (revalidateWave engine members w).2.2 := by
  rw [revalidateWave]
  split
  · exact ⟨members_refl members, .refl w⟩
  · exact callGroup_spec _ members w

/-- The call a member of a wave is recorded with; `w` is the process when the engine is reached. -/
def Member.commitRecord (engines : EngineRef → Engine ε) (runtime : RuntimeId) (m : Member)
    (w : World ε) : CommitCall :=
  m.hook.commitRecord engines .group runtime m.op.sink.requiredPredecessor w

theorem Member.Same.commitRecord {engines : EngineRef → Engine ε} {m m' : Member}
    (h : m.Same m') (runtime : RuntimeId)
    (w : World ε) : m'.commitRecord engines runtime w = m.commitRecord engines runtime w := by
  rw [Member.commitRecord, Member.commitRecord, h.hook, h.required]

theorem logCommitCalls_spec {Q : Event → Prop} (runtime : RuntimeId) (members : List Member)
    (w : World ε) (hQ : ∀ m ∈ members, Q (.commitCall (m.commitRecord engines runtime w))) :
    w.Quiet Q (logCommitCalls engines runtime members w) ∧
      ∀ m ∈ members, .commitCall (m.commitRecord engines runtime w) ∈
        (logCommitCalls engines runtime members w).history := by
  induction members generalizing w with
  | nil => exact ⟨.refl w, fun m hm ↦ absurd hm List.not_mem_nil⟩
  | cons member rest ih =>
    obtain ⟨hquiet, hmem⟩ := ih (w.log (.commitCall (member.commitRecord engines runtime w)))
      fun m hm ↦ hQ m (List.mem_cons_of_mem _ hm)
    refine ⟨(World.quiet_log w (hQ member List.mem_cons_self)).trans hquiet, fun m hm ↦ ?_⟩
    rcases List.mem_cons.mp hm with rfl | hm
    · exact hquiet.history.mem_old List.mem_cons_self
    · exact hmem m hm

/-- What a wave adds to the history before its members are settled. -/
def Event.ofWave (engines : EngineRef → Engine ε) (runtime : RuntimeId) (members : List Member)
    (w : World ε) (e : Event) : Prop :=
  (∃ m ∈ members, e = .commitCall (m.commitRecord engines runtime w)) ∨
    ∃ accepted flagged, e = .compensateCall accepted flagged

/-- Either the wave is not revalidated and nobody is reached, or everybody is. -/
theorem commitWave_spec (engine : Engine ε) (runtime : RuntimeId) (members : List Member)
    (w : World ε) (hcommit : engine.commitGroupCtx.isSome) :
    List.Forall₂ Member.Same members (commitWave engines engine runtime members w).2.1 ∧
      w.Quiet (Event.ofWave engines runtime members (revalidateWave engine members w).2.2)
        (commitWave engines engine runtime members w).2.2 ∧
      (((commitWave engines engine runtime members w).1 = .notRevalidated ∧
          ∀ m ∈ (commitWave engines engine runtime members w).2.1, m.op.mutation = .none) ∨
        ∀ m ∈ members, .commitCall (m.commitRecord engines runtime
          (revalidateWave engine members w).2.2) ∈
            (commitWave engines engine runtime members w).2.2.history) := by
  rw [commitWave]
  have hquiet₁ (Q : Event → Prop) := (revalidateWave_spec (Q := Q) engine members w).2
  have hsame₁ := (revalidateWave_spec (Q := fun _ ↦ False) engine members w).1
  generalize revalidateWave engine members w = r at hquiet₁ hsame₁ ⊢
  obtain ⟨revalidated, members₁, w₁⟩ := r
  dsimp only at hquiet₁ hsame₁ ⊢
  split
  · refine ⟨members_trans hsame₁ (failMembers_same _ _ _ _), hquiet₁ _, .inl ⟨rfl, ?_⟩⟩
    intro m hm
    obtain ⟨m', -, rfl⟩ := List.mem_map.mp hm
    rfl
  · -- the engine is reached, with the members as revalidation left them
    have hlog := logCommitCalls_spec engines
      (Q := Event.ofWave engines runtime members w₁) runtime members₁ w₁ fun m hm ↦ by
        obtain ⟨m₀, hm₀, hsame⟩ := Pointwise.mem_right hsame₁ hm
        exact .inl ⟨m₀, hm₀, by rw [hsame.commitRecord]⟩
    have hcalled : ∀ w', (logCommitCalls engines runtime members₁ w₁).Quiet (fun _ ↦ False) w' →
        ∀ m ∈ members, .commitCall (m.commitRecord engines runtime w₁) ∈ w'.history := by
      intro w' hw' m hm
      obtain ⟨m₁, hm₁, hsame⟩ := Pointwise.mem_left hsame₁ hm
      rw [← hsame.commitRecord]
      exact hw'.history.mem_old (hlog.2 m₁ hm₁)
    split
    · rename_i hnone
      rw [hnone] at hcommit
      cases hcommit
    · rename_i commit _
      obtain ⟨hsame₂, hquiet₂⟩ := callGroup_spec (Q := fun _ ↦ False) commit members₁
        (logCommitCalls engines runtime members₁ w₁)
      generalize callGroup commit members₁ (logCommitCalls engines runtime members₁ w₁) = c
        at hsame₂ hquiet₂ ⊢
      obtain ⟨accepted, members₂, w₂⟩ := c
      dsimp only at hsame₂ hquiet₂ ⊢
      have hquiet := (hquiet₁ (Event.ofWave engines runtime members w₁)).trans
        (hlog.1.trans (hquiet₂.mono fun _ ↦ False.elim))
      split
      · exact ⟨members_trans hsame₁ hsame₂, hquiet, .inr (hcalled w₂ hquiet₂)⟩
      · exact ⟨members_trans (members_trans hsame₁ hsame₂) (failMembers_same _ _ _ _), hquiet,
          .inr (hcalled w₂ hquiet₂)⟩

theorem verifyWave_spec {Q : Event → Prop} (engine : Engine ε) (verdict : WaveVerdict)
    (members : List Member) (w : World ε) :
    List.Forall₂ Member.Same members (verifyWave engine verdict members w).2.1 ∧
      w.Quiet Q (verifyWave engine verdict members w).2.2 ∧
      (verdict = .notRevalidated → (verifyWave engine verdict members w).2.1 = members) := by
  rw [verifyWave]
  split
  · exact ⟨members_refl members, .refl w, fun _ ↦ rfl⟩
  · rename_i verify _
    split
    · exact ⟨members_refl members, .refl w, fun _ ↦ rfl⟩
    · rename_i hverdict
      obtain ⟨hsame, hquiet⟩ := callGroup_spec (Q := Q) verify members w
      generalize callGroup verify members w = c at hsame hquiet ⊢
      obtain ⟨accepted, members₁, w₁⟩ := c
      dsimp only at hsame hquiet ⊢
      refine ⟨?_, hquiet, fun h ↦ absurd (by rw [h]; decide) hverdict⟩
      split
      · exact hsame
      · refine members_trans hsame (members_map ?_ members₁)
        exact fun _ ↦ ⟨rfl, rfl⟩

theorem compensateWave_spec (engine : Engine ε) (verdict : WaveVerdict) (verified : Bool)
    (members : List Member) (w : World ε) :
    List.Forall₂ Member.Same members (compensateWave engine verdict verified members w).1 ∧
      w.Quiet (fun e ↦ ∃ accepted flagged, e = .compensateCall accepted flagged)
        (compensateWave engine verdict verified members w).2 ∧
      (verdict = .notRevalidated →
        (compensateWave engine verdict verified members w).1 = members) := by
  rw [compensateWave]
  split
  · exact ⟨members_refl members, .refl w, fun _ ↦ rfl⟩
  · rename_i compensate _
    split
    · rename_i hneeded
      obtain ⟨hsame, hquiet⟩ := callGroup_spec
        (Q := fun e ↦ ∃ accepted flagged, e = Event.compensateCall accepted flagged) compensate
        members w
      generalize callGroup compensate members w = c at hsame hquiet ⊢
      obtain ⟨accepted, members₁, w₁⟩ := c
      dsimp only at hsame hquiet ⊢
      refine ⟨?_, hquiet.log ⟨_, _, rfl⟩, fun h ↦ ?_⟩
      · split
        · exact hsame
        · refine members_trans hsame (members_map ?_ members₁)
          exact fun _ ↦ ⟨rfl, rfl⟩
      · rw [h, compensationNeeded, Bool.false_and] at hneeded
        cases hneeded
    · exact ⟨members_refl members, .refl w, fun _ ↦ rfl⟩

/-- What a member ends with under the lock can only be spoiled. -/
theorem recordMember_spec {Q : Event → Prop} (member : Member) (w : World ε) :
    member.Same (recordMember engines member w).1 ∧
      w.Adds Q (recordMember engines member w).2 ∧
      ((recordMember engines member w).1.op.mutation = .complete →
        member.op.mutation = .complete) := by
  rw [recordMember]
  generalize hm₁ : (if member.op.sink.recordFailed = true ∧ member.op.mutation = .complete then
    Mutation.unknown else member.op.mutation) = m₁
  have h₁ : m₁ = .complete → member.op.mutation = .complete := by
    rintro rfl
    split at hm₁
    · cases hm₁
    · exact hm₁
  dsimp only
  generalize hr : (if m₁ = .complete then
      (if (validateCommitEffects engines member.hook member.op.sink member.out).1 = true then m₁
        else .unknown,
        (validateCommitEffects engines member.hook member.op.sink member.out).2)
    else (m₁, member.out)) = r
  have h₂ : r.1 = .complete → member.op.mutation = .complete := by
    intro hcomplete
    rw [← hr] at hcomplete
    split at hcomplete
    · rename_i hm
      exact h₁ hm
    · rename_i hne
      exact absurd hcomplete hne
  split
  · rename_i howner
    have hadds := World.adds_recordOwner (Q := Q) w member.hook.targetKey
      (member.hook.caps engines).engineId member.hook.spec.replacement
      member.op.sink.publishedOriginal
    generalize w.recordOwner member.hook.targetKey (member.hook.caps engines).engineId
      member.hook.spec.replacement member.op.sink.publishedOriginal = recorded at hadds ⊢
    obtain ⟨ok, w₁⟩ := recorded
    cases ok with
    | false => exact ⟨⟨rfl, rfl⟩, hadds, nofun⟩
    | true => exact ⟨⟨rfl, rfl⟩, hadds, fun _ ↦ h₂ howner.1⟩
  · exact ⟨⟨rfl, rfl⟩, .refl w, h₂⟩

theorem recordMembers_spec {Q : Event → Prop} (members : List Member) (w : World ε) :
    List.Forall₂ (fun m m' ↦ m.Same m' ∧ (m'.op.mutation = .complete → m.op.mutation = .complete))
        members (recordMembers engines members w).1 ∧
      w.Adds Q (recordMembers engines members w).2 := by
  induction members generalizing w with
  | nil => exact ⟨.nil, .refl w⟩
  | cons member rest ih =>
    obtain ⟨hsame, hadds, hcomplete⟩ := recordMember_spec engines (Q := Q) member w
    obtain ⟨hrest, hworld⟩ := ih (recordMember engines member w).2
    exact ⟨.cons ⟨hsame, hcomplete⟩ hrest, hadds.trans hworld⟩

/-- **Under the lock.**  A member can only come out complete when every member was handed to the
engine. -/
theorem commitGroupLocked_spec (engine : Engine ε) (runtime : RuntimeId) (members : List Member)
    (w : World ε) (hcommit : engine.commitGroupCtx.isSome) :
    List.Forall₂ Member.Same members (commitGroupLocked engines engine runtime members w).2.1 ∧
      w.Adds (Event.ofWave engines runtime members (revalidateWave engine members w).2.2)
        (commitGroupLocked engines engine runtime members w).2.2 ∧
      ((∃ m ∈ (commitGroupLocked engines engine runtime members w).2.1,
          m.op.mutation = .complete) →
        ∀ m ∈ members, .commitCall (m.commitRecord engines runtime
          (revalidateWave engine members w).2.2) ∈
            (commitGroupLocked engines engine runtime members w).2.2.history) := by
  rw [commitGroupLocked]
  obtain ⟨hsame₁, hquiet₁, hreached⟩ := commitWave_spec engines engine runtime members
    w hcommit
  generalize commitWave engines engine runtime members w = c at hsame₁ hquiet₁ hreached ⊢
  obtain ⟨verdict, members₁, w₁⟩ := c
  dsimp only at hsame₁ hquiet₁ hreached ⊢
  obtain ⟨hsame₂, hquiet₂, hskip₂⟩ := verifyWave_spec (Q := fun _ ↦ False) engine verdict members₁
    w₁
  generalize verifyWave engine verdict members₁ w₁ = v at hsame₂ hquiet₂ hskip₂ ⊢
  obtain ⟨verified, members₂, w₂⟩ := v
  dsimp only at hsame₂ hquiet₂ hskip₂ ⊢
  obtain ⟨hsame₃, hquiet₃, hskip₃⟩ := compensateWave_spec engine verdict verified members₂ w₂
  generalize compensateWave engine verdict verified members₂ w₂ = k at hsame₃ hquiet₃ hskip₃ ⊢
  obtain ⟨members₃, w₃⟩ := k
  dsimp only at hsame₃ hquiet₃ hskip₃ ⊢
  obtain ⟨hrecorded, hadds₄⟩ := recordMembers_spec engines (Q := fun _ ↦ False)
    members₃ w₃
  have hafter : w₁.Adds (fun e ↦ ∃ accepted flagged, e = .compensateCall accepted flagged)
      (recordMembers engines members₃ w₃).2 :=
    ((hquiet₂.mono fun _ ↦ False.elim).trans hquiet₃).toAdds.trans
      (hadds₄.mono fun _ ↦ False.elim)
  refine ⟨members_trans (members_trans hsame₁ (members_trans hsame₂ hsame₃))
    (hrecorded.imp fun _ _ h ↦ h.1), hquiet₁.toAdds.trans (hafter.mono fun _ ↦ .inr), ?_⟩
  rintro ⟨m, hm, hcomplete⟩ m₀ hm₀
  rcases hreached with ⟨hverdict, hnone⟩ | hcalled
  · -- a wave that is not revalidated goes through the rest without a change
    obtain ⟨m₃, hm₃, -, hmutation⟩ := Pointwise.mem_right hrecorded hm
    rw [hskip₃ hverdict, hskip₂ hverdict] at hm₃
    rw [hnone m₃ hm₃] at hmutation
    cases hmutation hcomplete
  · exact hafter.history.mem_old (hcalled m₀ hm₀)

theorem appendMemberLedgers_spec {Q : Event → Prop} (members : List Member) (ledger : Ledger)
    (w : World ε) :
    List.Forall₂ (fun m m' ↦ m.Same m' ∧ m'.op.mutation = m.op.mutation) members
        (appendMemberLedgers members ledger w).1 ∧
      w.Quiet Q (appendMemberLedgers members ledger w).2.2 := by
  induction members generalizing ledger w with
  | nil => exact ⟨.nil, .refl w⟩
  | cons member rest ih =>
    rw [appendMemberLedgers]
    generalize ledger.appendLedger member.op.sink.ledger w.env = appended
    obtain ⟨ok, ledger', env⟩ := appended
    dsimp only
    obtain ⟨hrest, hworld⟩ := ih ledger' (w.setEnv env)
    exact ⟨.cons ⟨⟨rfl, rfl⟩, rfl⟩ hrest, (World.quiet_setEnv w env).trans hworld⟩

/-- What becomes of a member of a wave. -/
structure Member.Settles (m : Member) (h : Hook) : Prop where
  same : m.hook.Same h
  preparedState : h.preparedState = m.hook.preparedState
  verdict : h.result.outcome.isVerdict = true
  installed : h.result.outcome = .active ∨ h.installed = m.hook.installed
  active : h.result.outcome = .active → m.op.mutation = .complete

/-- Every member is settled, and nothing else is written down. -/
theorem finishMembers_spec (runtime : RuntimeId) (verified : Bool) (members : List Member)
    (ledger : Ledger) (w : World ε) :
    List.Forall₂ Member.Settles members
        (finishMembers engines runtime verified members ledger w).1 ∧
      w.Quiet (fun e ↦ ∃ m ∈ members,
          ∃ hook ∈ (finishMembers engines runtime verified members ledger w).1, m.Settles hook ∧
            ∃ published, e = .commitSettled
              (hook.settledRecord engines .group m.op.sink.requiredPredecessor published))
        (finishMembers engines runtime verified members ledger w).2.2 ∧
      ∀ hook ∈ (finishMembers engines runtime verified members ledger w).1, ∃ required published,
        .commitSettled (hook.settledRecord engines .group required published) ∈
          (finishMembers engines runtime verified members ledger w).2.2.history := by
  induction members generalizing ledger w with
  | nil => exact ⟨.nil, .refl w, fun hook hhook ↦ absurd hhook List.not_mem_nil⟩
  | cons member rest ih =>
    rw [finishMembers]
    generalize (if verified = true then
      some (⟨member.op.verifyResult, member.op.verifyDiag⟩ : VerifyAnswer) else none) = group
    have hfinish := finishCommitAttempt_spec engines .group runtime member.hook
      member.out ledger member.artifactStart member.op.mutation member.op.sink group false
      member.op.compensated w
    generalize finishCommitAttempt engines .group runtime member.hook member.out ledger
      member.artifactStart member.op.mutation member.op.sink group false member.op.compensated w = f
      at hfinish ⊢
    obtain ⟨hook, ledger₁, w₁⟩ := f
    dsimp only at hfinish ⊢
    obtain ⟨hrest, hquiet, hmem⟩ := ih ledger₁ w₁
    have hsettles : member.Settles hook := ⟨hfinish.same, hfinish.preparedState, hfinish.verdict,
      hfinish.installed, fun h ↦ (hfinish.active h).1⟩
    obtain ⟨mid, hadds, hmid⟩ := hfinish.world
    have hfirst : w.Quiet (fun e ↦ ∃ m ∈ member :: rest,
        ∃ h ∈ hook :: (finishMembers engines runtime verified rest ledger₁ w₁).1, m.Settles h ∧
          ∃ published, e = .commitSettled
            (h.settledRecord engines .group m.op.sink.requiredPredecessor published)) w₁ := by
      refine ⟨?_, hfinish.unowned rfl⟩
      rw [hmid]
      exact (hadds.mono fun _ ↦ False.elim).log
        ⟨member, List.mem_cons_self, hook, List.mem_cons_self, hsettles, _, rfl⟩
    refine ⟨.cons hsettles hrest, hfirst.trans (hquiet.mono ?_), fun h hh ↦ ?_⟩
    · rintro e ⟨m, hm, h, hh, hrecord⟩
      exact ⟨m, List.mem_cons_of_mem _ hm, h, List.mem_cons_of_mem _ hh, hrecord⟩
    · rcases List.mem_cons.mp hh with rfl | hh
      · refine ⟨member.op.sink.requiredPredecessor, member.op.sink.publishedOriginal,
          hquiet.history.mem_old ?_⟩
        rw [hmid]
        exact List.mem_cons_self
      · exact hmem h hh

theorem allocMembers_quiet {Q : Event → Prop} (hooks : List Hook) (w : World ε) :
    w.Quiet Q (allocMembers hooks w).2 := by
  induction hooks generalizing w with
  | nil => exact .refl w
  | cons hook rest ih =>
    have halloc : w.Quiet Q w.alloc.2 := World.quiet_alloc w
    rw [allocMembers]
    generalize w.alloc = allocated at halloc ⊢
    obtain ⟨ok, w₁⟩ := allocated
    cases ok with
    | false => exact halloc
    | true => exact halloc.trans (ih w₁)

/-! ### Selection -/

theorem joinsCommitWave_spec {generation : Nat} {first : Hook} {previous : List Hook} {hook : Hook}
    (h : joinsCommitWave generation first previous hook = true) :
    hook.result.outcome = .prepared ∧ hook.spec.domain = none ∧ hook.spec.after = [] ∧
      hook.matchedEngine = first.matchedEngine ∧ hook.result.imageGeneration = generation ∧
      ∀ earlier ∈ previous, earlier.targetKey ≠ hook.targetKey := by
  simpa [joinsCommitWave, and_assoc] using h

theorem startsCommitWave_spec {engines : EngineRef → Engine ε} {first : Hook}
    (h : startsCommitWave engines first = true) :
    first.result.outcome = .prepared ∧ first.spec.domain = none ∧ first.spec.after = [] ∧
      first.matchedEngine.isSome = true ∧ (first.engine engines).commitGroupCtx.isSome = true ∧
      (first.caps engines).nativeGrouping = true := by
  simpa [startsCommitWave, and_assoc] using h

/-- What is known of the hooks that follow in a wave. -/
theorem commitWaveLength_spec (owners : Owners) (generation : Nat) (first : Hook)
    (previous rest : List Hook) :
    ∀ hook ∈ rest.take (commitWaveLength owners generation first previous rest),
      hook.result.outcome = .prepared ∧ hook.spec.domain = none ∧ hook.spec.after = [] ∧
        hook.matchedEngine = first.matchedEngine ∧ hook.result.imageGeneration = generation ∧
        owners.lookup hook.targetKey = none := by
  induction rest generalizing previous with
  | nil => exact fun hook hhook ↦ absurd hhook (by simp)
  | cons hook rest ih =>
    rw [commitWaveLength]
    split
    · rename_i hjoins
      rw [Bool.and_eq_true, Option.isNone_iff_eq_none] at hjoins
      obtain ⟨hprepared, hdomain, hafter, hengine, hgeneration, -⟩ := joinsCommitWave_spec hjoins.1
      intro h hh
      rw [Nat.add_comm, List.take_succ_cons] at hh
      rcases List.mem_cons.mp hh with rfl | hh
      · exact ⟨hprepared, hdomain, hafter, hengine, hgeneration, hjoins.2⟩
      · exact ih _ h hh
    · exact fun hook hhook ↦ absurd hhook (by simp)

theorem commitWaveLength_le {owners : Owners} {generation : Nat} {first : Hook}
    (previous rest : List Hook) :
    commitWaveLength owners generation first previous rest ≤ rest.length := by
  induction rest generalizing previous with
  | nil => exact le_rfl
  | cons hook rest ih =>
    rw [commitWaveLength]
    split
    · rw [List.length_cons, Nat.add_comm]
      exact Nat.succ_le_succ (ih _)
    · exact Nat.zero_le _

/-- **The members of a wave.**  All of them are prepared, outside of every domain, without
dependencies and served by one engine that can commit waves; nobody owned their keys when the wave
was selected.  The generation is only compared for those after the first. -/
theorem commitGroupCount_spec {engines : EngineRef → Engine ε} {owners : Owners}
    {generation : Nat} {hooks : List Hook}
    (h : 1 < commitGroupCount engines owners generation hooks) :
    ∃ first rest, hooks.take (commitGroupCount engines owners generation hooks) = first :: rest ∧
      commitGroupCount engines owners generation hooks = (first :: rest).length ∧
      (first.engine engines).commitGroupCtx.isSome = true ∧
      (∀ hook ∈ first :: rest, hook.result.outcome = .prepared ∧ hook.spec.domain = none ∧
        hook.spec.after = [] ∧ hook.matchedEngine = first.matchedEngine ∧
        owners.lookup hook.targetKey = none) ∧
      ∀ hook ∈ rest, hook.result.imageGeneration = generation := by
  cases hooks with
  | nil => simp [commitGroupCount] at h
  | cons first rest =>
    rw [commitGroupCount] at h ⊢
    split at h
    · rename_i hstarts
      rw [Bool.and_eq_true, Option.isNone_iff_eq_none] at hstarts
      obtain ⟨hprepared, hdomain, hafter, -, hgroup, -⟩ := startsCommitWave_spec hstarts.1
      rw [if_pos (by rw [Bool.and_eq_true, Option.isNone_iff_eq_none]; exact hstarts)]
      dsimp only at h ⊢
      split at h
      · rename_i hcount
        rw [if_pos hcount, Nat.add_comm, List.take_succ_cons]
        have hrest := commitWaveLength_spec owners generation first [first] rest
        refine ⟨first, _, rfl, ?_, hgroup, fun hook hhook ↦ ?_, fun hook hhook ↦ ?_⟩
        · rw [List.length_cons, List.length_take, Nat.min_eq_left (commitWaveLength_le _ _)]
        · rcases List.mem_cons.mp hhook with rfl | hhook
          · exact ⟨hprepared, hdomain, hafter, rfl, hstarts.2⟩
          · obtain ⟨hp, hd, ha, he, -, ho⟩ := hrest hook hhook
            exact ⟨hp, hd, ha, he, ho⟩
        · exact (hrest hook hhook).2.2.2.2.1
      · omega
    · omega

/-! ### The whole wave -/

/-- Revalidation does not move the image catalog. -/
def Engine.RevalidatesInPlace (engine : Engine ε) (runtime : RuntimeId) : Prop :=
  ∀ revalidate, engine.revalidateGroupCtx = some revalidate →
    ∀ operations env, (revalidate operations env).2.generation runtime = env.generation runtime

theorem applyWrites_generation (writes : Nat → OperationWrites) (offset : Nat)
    (members : List Member) (w : World ε) :
    (applyWrites writes offset members w).2.env.generation = w.env.generation := by
  induction members generalizing offset w with
  | nil => rfl
  | cons member rest ih =>
    rw [applyWrites]
    exact (ih _ _).trans (Sink.write_generation _ _ _)

theorem revalidateWave_generation {engine : Engine ε} {runtime : RuntimeId}
    (h : engine.RevalidatesInPlace runtime) (members : List Member) (w : World ε) :
    (revalidateWave engine members w).2.2.env.generation runtime = w.env.generation runtime := by
  rw [revalidateWave]
  split
  · rfl
  · rename_i revalidate hsome
    show (applyWrites _ 0 members _).2.env.generation runtime = _
    rw [applyWrites_generation]
    exact h revalidate hsome _ _

theorem allocMembers_generation (hooks : List Hook) (w : World ε) :
    (allocMembers hooks w).2.env.generation = w.env.generation := by
  induction hooks generalizing w with
  | nil => rfl
  | cons hook rest ih =>
    have halloc : w.alloc.2.env.generation = w.env.generation := Env.alloc_generation w.env
    rw [allocMembers]
    generalize w.alloc = allocated at halloc ⊢
    obtain ⟨ok, w₁⟩ := allocated
    cases ok with
    | false => exact halloc
    | true => exact (ih w₁).trans halloc

/-- What becomes of a hook in a wave. -/
structure Hook.Settles (h h' : Hook) : Prop extends Hook.Same h h' where
  preparedState : h'.preparedState = h.preparedState
  verdict : h'.result.outcome.isVerdict = true
  installed : h'.result.outcome = .active ∨ h'.installed = h.installed

/-- What a wave leaves.  `w₁` is the process when the engine is reached. -/
structure CommittedWave (engines : EngineRef → Engine ε) (plan : CommitPlan) (first : Hook)
    (wave : List Hook) (w : World ε) (settled : List Hook) (w₁ w' : World ε) : Prop where
  settles : List.Forall₂ Hook.Settles wave settled
  reached : w.Quiet (fun _ ↦ False) w₁
  generation : (first.engine engines).RevalidatesInPlace plan.runtime →
    w₁.env.generation plan.runtime = w.env.generation plan.runtime
  world : w.Adds (fun e ↦
      (∃ hook ∈ wave, e = .commitCall (hook.commitRecord engines .group plan.runtime none w₁)) ∨
      (∃ accepted flagged, e = .compensateCall accepted flagged) ∨
      ∃ hook ∈ wave, ∃ hook' ∈ settled, hook.Settles hook' ∧ ∃ published,
        e = .commitSettled (hook'.settledRecord engines .group none published)) w'
  called : ∀ hook' ∈ settled, hook'.result.outcome = .active → ∀ hook ∈ wave,
    .commitCall (hook.commitRecord engines .group plan.runtime none w₁) ∈ w'.history
  recorded : ∀ hook' ∈ settled, ∃ required published,
    .commitSettled (hook'.settledRecord engines .group required published) ∈ w'.history

/-- **Committing a wave** either runs out of memory before any engine is reached or settles every
member. -/
theorem commitGroup_cases (plan : CommitPlan) (count : Nat) (st : CommitState ε) {first : Hook}
    {rest : List Hook} (hwave : hooksAt st.hooks ((plan.order.drop st.position).take count) =
      first :: rest) (hcommit : (first.engine engines).commitGroupCtx.isSome) :
    (∃ w', st.world.Quiet (fun _ ↦ False) w' ∧
        commitGroup engines plan count st = .stop { st with world := w' }) ∨
      ∃ settled ledger w₁ w',
        CommittedWave engines plan first (first :: rest) st.world settled w₁ w' ∧
        commitGroup engines plan count st = .next (CommitState.count
          { st with
            world := w', ledger := ledger
            hooks := writeBack st.hooks ((plan.order.drop st.position).take count) settled
            attempted := st.attempted + count, position := st.position + count } settled) := by
  rw [commitGroup]
  have henv := Env.allocAll_generation st.world.env 4
  generalize st.world.env.allocAll 4 = allocated at henv ⊢
  obtain ⟨ok, env⟩ := allocated
  cases ok with
  | false => exact .inl ⟨_, World.quiet_setEnv st.world env, rfl⟩
  | true =>
    dsimp only at henv ⊢
    rw [hwave]
    have hmembersAlloc := allocMembers_quiet (Q := fun _ ↦ False) (first :: rest)
      (st.world.setEnv env)
    have hgen := allocMembers_generation (first :: rest) (st.world.setEnv env)
    generalize allocMembers (first :: rest) (st.world.setEnv env) =
      allocated' at hmembersAlloc hgen ⊢
    obtain ⟨ok', w₀⟩ := allocated'
    have hquiet₀ : st.world.Quiet (fun _ ↦ False) w₀ :=
      (World.quiet_setEnv st.world env).trans hmembersAlloc
    cases ok' with
    | false => exact .inl ⟨w₀, hquiet₀, rfl⟩
    | true =>
      refine .inr ?_
      dsimp only [List.head?_cons, Option.map_some, Option.getD_some] at hgen ⊢
      generalize hopen : (first :: rest).map (openOperation plan
        (first.engine engines).revalidateGroupCtx.isNone) = members
      have hopened : List.Forall₂ (fun h m ↦ m.hook = h ∧ m.op.sink.requiredPredecessor = none)
          (first :: rest) members := by
        rw [← hopen, List.forall₂_map_right_iff]
        exact List.forall₂_same.mpr fun h _ ↦ ⟨rfl, rfl⟩
      obtain ⟨hsame₁, hadds₁, hcalled⟩ := commitGroupLocked_spec engines
        (first.engine engines) plan.runtime members w₀ hcommit
      have hrevalidated := (revalidateWave_spec (Q := fun _ ↦ False) (first.engine engines) members
        w₀).2
      have hgen₁ : (first.engine engines).RevalidatesInPlace plan.runtime →
          (revalidateWave (first.engine engines) members w₀).2.2.env.generation plan.runtime =
            st.world.env.generation plan.runtime := fun h ↦ by
        rw [revalidateWave_generation h, hgen]
        exact congrFun henv plan.runtime
      generalize (revalidateWave (first.engine engines) members w₀).2.2 = w₁
        at hadds₁ hcalled hrevalidated hgen₁
      generalize commitGroupLocked engines (first.engine engines) plan.runtime members w₀ = locked
        at hsame₁ hadds₁ hcalled ⊢
      obtain ⟨verified, members₁, w₂⟩ := locked
      dsimp only at hsame₁ hadds₁ hcalled ⊢
      obtain ⟨hsame₂, hquiet₂⟩ :=
        appendMemberLedgers_spec (Q := fun _ ↦ False) members₁ st.ledger w₂
      generalize appendMemberLedgers members₁ st.ledger w₂ = appended at hsame₂ hquiet₂ ⊢
      obtain ⟨members₂, ledger₂, w₃⟩ := appended
      dsimp only at hsame₂ hquiet₂ ⊢
      obtain ⟨hsettles, hquiet₃, hrecorded⟩ := finishMembers_spec engines plan.runtime
        verified members₂ ledger₂ w₃
      generalize finishMembers engines plan.runtime verified members₂ ledger₂ w₃ = finished
        at hsettles hquiet₃ hrecorded ⊢
      obtain ⟨settled, ledger₃, w₄⟩ := finished
      dsimp only at hsettles hquiet₃ hrecorded ⊢
      refine ⟨settled, _, w₁, w₄, ?_, rfl⟩
      -- the operations still belong to the hooks of the wave, and still require nothing
      have hof : List.Forall₂ (fun h m ↦ m.hook = h ∧ m.op.sink.requiredPredecessor = none)
          (first :: rest) members₂ :=
        Pointwise.comp (fun h m m' ⟨hhook, hrequired⟩ hsame ↦
            ⟨hsame.hook.trans hhook, hsame.required.trans hrequired⟩) hopened
          (members_trans hsame₁ (hsame₂.imp fun _ _ h ↦ h.1))
      have hcall : ∀ m ∈ members, ∃ hook ∈ first :: rest,
          m.commitRecord engines plan.runtime w₁ =
            hook.commitRecord engines .group plan.runtime none w₁ := by
        intro m hm
        obtain ⟨hook, hmem, hhook, hrequired⟩ := Pointwise.mem_right hopened hm
        exact ⟨hook, hmem, by rw [Member.commitRecord, hhook, hrequired]⟩
      refine ⟨?_, hquiet₀.trans hrevalidated, hgen₁, ?_, ?_, hrecorded⟩
      · refine Pointwise.comp (fun h m h' ⟨hhook, _⟩ hm ↦ ?_) hof hsettles
        subst hhook
        exact ⟨hm.same, hm.preparedState, hm.verdict, hm.installed⟩
      · refine ((hquiet₀.toAdds.mono fun _ ↦ False.elim).trans (hadds₁.mono ?_)).trans
          (((hquiet₂.mono fun _ ↦ False.elim).trans (hquiet₃.mono ?_)).toAdds)
        · rintro e (⟨m, hm, rfl⟩ | hcompensate)
          · obtain ⟨hook, hmem, heq⟩ := hcall m hm
            exact .inl ⟨hook, hmem, by rw [heq]⟩
          · exact .inr (.inl hcompensate)
        · rintro e ⟨m, hm, hook', hhook', hsettle, published, rfl⟩
          obtain ⟨hook, hmem, hhook, hrequired⟩ := Pointwise.mem_right hof hm
          subst hhook
          rw [hrequired]
          exact .inr (.inr ⟨m.hook, hmem, hook', hhook', ⟨hsettle.same, hsettle.preparedState,
            hsettle.verdict, hsettle.installed⟩, published, rfl⟩)
      · intro hook' hmem' hactive hook hmem
        obtain ⟨m₂, hm₂, hsettle⟩ := Pointwise.mem_right hsettles hmem'
        obtain ⟨m₁, hm₁, -, hmutation⟩ := Pointwise.mem_right hsame₂ hm₂
        obtain ⟨m, hm, hhook, hrequired⟩ := Pointwise.mem_left hopened hmem
        have hlogged := hcalled ⟨m₁, hm₁, hmutation.symm.trans (hsettle.active hactive)⟩ m hm
        rw [Member.commitRecord, hhook, hrequired] at hlogged
        exact hquiet₃.history.mem_old (hquiet₂.history.mem_old hlogged)

/-! ### Writing back -/

theorem hooksAt_cons {hooks : List Hook} {i : Nat} {hook : Hook} (h : hooks[i]? = some hook)
    (order : List Nat) : hooksAt hooks (i :: order) = hook :: hooksAt hooks order := by
  rw [hooksAt, List.filterMap_cons, h]
  rfl

theorem hooksAt_drop {hooks : List Hook} {order : List Nat} {position i : Nat} {hook : Hook}
    (horder : order[position]? = some i) (h : hooks[i]? = some hook) :
    hooksAt hooks (order.drop position) = hook :: hooksAt hooks (order.drop (position + 1)) := by
  obtain ⟨hlt, rfl⟩ := List.getElem?_eq_some_iff.mp horder
  rw [List.drop_eq_getElem_cons hlt, hooksAt_cons h]

theorem hooksAt_take {hooks : List Hook} {order : List Nat}
    (hvalid : ∀ i ∈ order, i < hooks.length) (count : Nat) :
    hooksAt hooks (order.take count) = (hooksAt hooks order).take count := by
  induction order generalizing count with
  | nil => simp [hooksAt]
  | cons i rest ih =>
    cases count with
    | zero => simp [hooksAt]
    | succ count =>
      have hget := List.getElem?_eq_getElem (hvalid i List.mem_cons_self)
      rw [List.take_succ_cons, hooksAt_cons hget, hooksAt_cons hget, List.take_succ_cons,
        ih fun j hj ↦ hvalid j (List.mem_cons_of_mem i hj)]

theorem hooksAt_mem {hooks : List Hook} {order : List Nat} {hook : Hook}
    (h : hook ∈ hooksAt hooks order) : hook ∈ hooks := by
  obtain ⟨i, -, hget⟩ := List.mem_filterMap.mp h
  exact List.mem_of_getElem? hget

/-- Setting a hook whose index is not in the order does not show. -/
theorem hooksAt_set {hooks : List Hook} {order : List Nat} {i : Nat} (hi : i ∉ order)
    (hook : Hook) : hooksAt (hooks.set i hook) order = hooksAt hooks order := by
  refine List.filterMap_congr fun j hj ↦ ?_
  refine List.getElem?_set_ne ?_
  rintro rfl
  exact hi hj

theorem writeBack_forall₂ {R : Hook → Hook → Prop} (hrefl : ∀ h, R h h)
    (htrans : ∀ h₁ h₂ h₃, R h₁ h₂ → R h₂ h₃ → R h₁ h₃) {hooks : List Hook} {order : List Nat}
    {settled : List Hook} (hvalid : ∀ i ∈ order, i < hooks.length) (hnodup : order.Nodup)
    (h : List.Forall₂ R (hooksAt hooks order) settled) :
    List.Forall₂ R hooks (writeBack hooks order settled) := by
  induction order generalizing hooks settled with
  | nil => cases settled <;> exact Pointwise.refl hrefl hooks
  | cons i rest ih =>
    have hget := List.getElem?_eq_getElem (hvalid i List.mem_cons_self)
    rw [hooksAt_cons hget] at h
    cases h with
    | cons hR hrest =>
      obtain ⟨hi, hnodup⟩ := List.nodup_cons.mp hnodup
      rw [writeBack]
      refine Pointwise.trans htrans (Pointwise.set hrefl hget hR) (ih ?_ hnodup ?_)
      · intro j hj
        rw [List.length_set]
        exact hvalid j (List.mem_cons_of_mem i hj)
      · rwa [hooksAt_set hi]

theorem writeBack_mem {hooks : List Hook} {order : List Nat} {settled : List Hook} {hook : Hook}
    (h : hook ∈ writeBack hooks order settled) : hook ∈ hooks ∨ hook ∈ settled := by
  induction order generalizing hooks settled with
  | nil => cases settled <;> exact .inl h
  | cons i rest ih =>
    cases settled with
    | nil => exact .inl h
    | cons first settled =>
      rw [writeBack] at h
      rcases ih h with h | h
      · rcases List.mem_or_eq_of_mem_set h with h | rfl
        · exact .inl h
        · exact .inr List.mem_cons_self
      · exact .inr (List.mem_cons_of_mem first h)

theorem writeBack_getElem? {hooks : List Hook} {order : List Nat} {settled : List Hook} {i : Nat}
    (hi : i ∉ order) : (writeBack hooks order settled)[i]? = hooks[i]? := by
  induction order generalizing hooks settled with
  | nil => cases settled <;> rfl
  | cons j rest ih =>
    cases settled with
    | nil => rfl
    | cons first settled =>
      rw [List.mem_cons, not_or] at hi
      rw [writeBack, ih hi.2]
      exact List.getElem?_set_ne (Ne.symm hi.1)

/-- Every settled hook is written back. -/
theorem mem_writeBack {hooks : List Hook} {order : List Nat} {settled : List Hook}
    (hvalid : ∀ i ∈ order, i < hooks.length) (hnodup : order.Nodup)
    (hlength : settled.length ≤ order.length) :
    settled ⊆ writeBack hooks order settled := by
  induction order generalizing hooks settled with
  | nil =>
    rw [List.length_eq_zero_iff.mp (Nat.le_zero.mp hlength)]
    exact List.nil_subset _
  | cons i rest ih =>
    cases settled with
    | nil => exact List.nil_subset _
    | cons first settled =>
      obtain ⟨hi, hnodup⟩ := List.nodup_cons.mp hnodup
      have hvalid' : ∀ j ∈ rest, j < (hooks.set i first).length := fun j hj ↦ by
        rw [List.length_set]
        exact hvalid j (List.mem_cons_of_mem i hj)
      rw [writeBack]
      refine List.cons_subset.mpr ⟨?_, ih hvalid' hnodup (Nat.le_of_succ_le_succ hlength)⟩
      -- the rest of the order does not touch the index that was just written
      refine List.mem_of_getElem? ((writeBack_getElem? hi).trans ?_)
      exact List.getElem?_set_self (hvalid i List.mem_cons_self)

/-! ## One pass -/

/-- The prepared hook a pass is about. -/
structure Visits (plan : CommitPlan) (st : CommitState ε) (index : Nat) (hook : Hook) : Prop where
  order : plan.order[st.position]? = some index
  get : st.hooks[index]? = some hook
  prepared : hook.result.outcome = .prepared

/-- The ways through one pass of the loop in `hk_plan_commit`. -/
inductive CommitPass (engines : EngineRef → Engine ε) (plan : CommitPlan) (st : CommitState ε) :
    Flow (CommitState ε) → Prop where
  /-- There is nothing to do for the hook. -/
  | skip : CommitPass engines plan st (.next { st with position := st.position + 1 })
  /-- A wave runs out of memory. -/
  | exhausted {w' : World ε} (hquiet : st.world.Quiet (fun _ ↦ False) w') :
    CommitPass engines plan st (.stop { st with world := w' })
  /-- A wave is committed. -/
  | wave {index count : Nat} {hook : Hook} {rest settled : List Hook} {ledger : Ledger}
      {w₁ w' : World ε} (hvisits : Visits plan st index hook)
        (hcount : count = (hook :: rest).length)
      (hmembers : ∀ h ∈ hook :: rest, h.result.outcome = .prepared ∧ h.spec.domain = none ∧
        h.spec.after = [] ∧ h.matchedEngine = hook.matchedEngine ∧
        st.world.owners.lookup h.targetKey = none)
      (hlater : ∀ h ∈ rest, h.result.imageGeneration = st.world.env.generation plan.runtime)
      (hwave : hooksAt st.hooks ((plan.order.drop st.position).take count) = hook :: rest)
      (hcommitted : CommittedWave engines plan hook (hook :: rest) st.world settled w₁ w') :
    CommitPass engines plan st (.next (CommitState.count
      { st with
        world := w', ledger := ledger
        hooks := writeBack st.hooks ((plan.order.drop st.position).take count) settled
        attempted := st.attempted + count, position := st.position + count } settled))
  /-- A domain does not pass its preflight. -/
  | refused {index : Nat} {hook : Hook} {domain : Id} (hvisits : Visits plan st index hook)
      (hrefused : domainRefused plan hook st = some domain) :
    CommitPass engines plan st
      (.next { refuseDomain engines plan domain st with position := st.position + 1 })
  /-- A hook is stale. -/
  | stale {index : Nat} {hook : Hook} {out : HookResult} (hvisits : Visits plan st index hook)
      (hallowed : domainRefused plan hook st = none)
      (hstale : hook.result.imageGeneration ≠ st.world.env.generation plan.runtime)
      (hout : out.outcome = .stalePlan ∧ out.mutation = hook.result.mutation) :
    CommitPass engines plan st (.next { st.settled index { hook with result := out } st.ledger
      (st.world.log (.commitSettled
        (Hook.settledRecord engines .single { hook with result := out } none 0))) with
      position := st.position + 1 })
  /-- A dependency of a hook is not active. -/
  | dependency {index : Nat} {hook : Hook} {out : HookResult} (hvisits : Visits plan st index hook)
      (hallowed : domainRefused plan hook st = none)
      (hcurrent : hook.result.imageGeneration = st.world.env.generation plan.runtime)
      (hblocked : dependenciesActive st.hooks hook = false) (hout : out.outcome = .failedSafe) :
    CommitPass engines plan st (.next { CommitState.settled
      { st with attempted := st.attempted + 1 } index { hook with result := out } st.ledger
      (st.world.log (.commitSettled
        (Hook.settledRecord engines .single { hook with result := out } none 0))) with
      position := st.position + 1 })
  /-- A hook is committed by itself. -/
  | single {index : Nat} {hook hook' : Hook} {ledger : Ledger} {w' : World ε}
      (hvisits : Visits plan st index hook) (hallowed : domainRefused plan hook st = none)
      (hcurrent : hook.result.imageGeneration = st.world.env.generation plan.runtime)
      (hready : dependenciesActive st.hooks hook = true)
      (hcommitted : CommittedOne engines .single plan.runtime hook st.world hook' w') :
    CommitPass engines plan st (.next { CommitState.settled
      { st with attempted := st.attempted + 1 } index hook' ledger w' with
      position := st.position + 1 })

theorem commitIter_pass (plan : CommitPlan) (st : CommitState ε)
    (hvalid : ∀ i ∈ plan.order, i < st.hooks.length) :
    CommitPass engines plan st (commitIter engines plan st) := by
  rw [commitIter]
  split
  · exact .skip
  · rename_i index horder
    split
    · exact .skip
    · rename_i hook hget
      split
      · exact .skip
      · rename_i hprepared
        rw [not_not] at hprepared
        have hvisits : Visits plan st index hook := ⟨horder, hget, hprepared⟩
        dsimp only
        split
        · rename_i hmore
          have hdrop : ∀ i ∈ plan.order.drop st.position, i < st.hooks.length :=
            fun i hi ↦ hvalid i (List.mem_of_mem_drop hi)
          obtain ⟨first, rest, htake, hcount, hcommit, hmembers, hlater⟩ :=
            commitGroupCount_spec hmore
          have hwave := (hooksAt_take hdrop _).trans htake
          -- the hook the pass is about is the first of the wave
          have hfirst : first = hook := by
            obtain ⟨n, hn⟩ := Nat.exists_eq_succ_of_ne_zero (Nat.ne_zero_of_lt hmore)
            rw [hn, hooksAt_drop horder hget, List.take_succ_cons] at htake
            exact (List.cons.inj htake).1.symm
          subst hfirst
          rcases commitGroup_cases engines plan _ st hwave hcommit with
            ⟨w', hquiet, heq⟩ | ⟨settled, ledger, w₁, w', hcommitted, heq⟩
          · rw [heq]
            exact .exhausted hquiet
          · rw [heq]
            exact .wave hvisits hcount hmembers hlater hwave hcommitted
        · split
          · rename_i domain hrefused
            exact .refused hvisits hrefused
          · rename_i hallowed
            rw [commitSingle]
            split
            · rename_i hstale
              exact .stale hvisits hallowed hstale ⟨rfl, rfl⟩
            · rename_i hcurrent
              rw [not_not] at hcurrent
              dsimp only
              split
              · rename_i hblocked
                exact .dependency hvisits hallowed hcurrent (by simpa using hblocked) rfl
              · rename_i hready
                exact .single hvisits hallowed hcurrent (by simpa using hready)
                  (commitOneHook_spec engines _ _ _ _ _ _ _ _ _)

namespace CommitPass

variable {plan : CommitPlan} {st : CommitState ε} {flow : Flow (CommitState ε)}

/-- A pass settles prepared hooks, and changes nothing else about the plan's hooks. -/
theorem commits {engines : EngineRef → Engine ε} (h : CommitPass engines plan st flow)
    (hvalid : ∀ i ∈ plan.order, i < st.hooks.length)
    (hnodup : plan.order.Nodup) : List.Forall₂ Hook.Commits st.hooks flow.state.hooks := by
  cases h with
  | skip => exact Pointwise.refl .refl _
  | exhausted => exact Pointwise.refl .refl _
  | wave hvisits hcount hmembers hlater hwave hcommitted =>
    refine writeBack_forall₂ .refl (fun _ _ _ ↦ .trans)
      (fun i hi ↦ hvalid i (List.mem_of_mem_drop (List.mem_of_mem_take hi)))
      ((hnodup.sublist (List.drop_sublist _ _)).sublist (List.take_sublist _ _)) ?_
    rw [hwave]
    exact ((List.forall₂_and_left _ _).mpr ⟨fun h hh ↦ (hmembers h hh).1, hcommitted.settles⟩).imp
      fun h h' ⟨hprepared, hsettles⟩ ↦
        ⟨hsettles.toSame, .inr ⟨hprepared, Outcome.isFinal_of_isVerdict hsettles.verdict⟩,
          hsettles.installed.symm⟩
  | refused hvisits hrefused =>
    exact (markDomainCommitPreflightFailed_spec engines _ _ _ _).1.imp fun _ _ h ↦ h.1
  | stale hvisits hallowed hstale hout =>
    refine Pointwise.set .refl hvisits.get (.settled hvisits.prepared ?_)
    rw [hout.1]
    rfl
  | dependency hvisits hallowed hcurrent hblocked hout =>
    refine Pointwise.set .refl hvisits.get (.settled hvisits.prepared ?_)
    rw [hout]
    rfl
  | single hvisits hallowed hcurrent hready hcommitted =>
    exact Pointwise.set .refl hvisits.get (hcommitted.commits hvisits.prepared)

/-- A pass only writes down what happens to the hooks it settles. -/
theorem events {engines : EngineRef → Engine ε} (h : CommitPass engines plan st flow)
    (hvalid : ∀ i ∈ plan.order, i < st.hooks.length) (hnodup : plan.order.Nodup) :
    st.world.Adds (Event.settles st.hooks flow.state.hooks) flow.state.world := by
  cases h with
  | skip => exact .refl _
  | exhausted hquiet => exact hquiet.toAdds.mono fun _ ↦ False.elim
  | @wave index count hook rest settled ledger w₁ w' hvisits hcount hmembers hlater hwave
      hcommitted =>
    have hsettled : settled ⊆
        writeBack st.hooks ((plan.order.drop st.position).take count) settled := by
      refine mem_writeBack (fun i hi ↦ hvalid i (List.mem_of_mem_drop (List.mem_of_mem_take hi)))
        ((hnodup.sublist (List.drop_sublist _ _)).sublist (List.take_sublist _ _)) ?_
      rw [← hcommitted.settles.length_eq, ← hwave]
      exact List.length_filterMap_le _ _
    have hmem : ∀ h ∈ hook :: rest, h ∈ st.hooks := fun h hh ↦ hooksAt_mem (hwave ▸ hh)
    refine hcommitted.world.mono ?_
    rintro e (⟨h, hh, rfl⟩ | ⟨accepted, flagged, rfl⟩ | ⟨h, hh, h', hh', hsettles, _, rfl⟩)
    · obtain ⟨h', hh', hsettles⟩ := Pointwise.mem_left hcommitted.settles hh
      exact ⟨h, hmem h hh, h', hsettled hh', hsettles.toSame, rfl, (hmembers h hh).1,
        hsettles.verdict⟩
    · trivial
    · exact ⟨h, hmem h hh, h', hsettled hh', hsettles.toSame, hsettles.hookId, (hmembers h hh).1,
        Outcome.isFinal_of_isVerdict hsettles.verdict, rfl⟩
  | refused hvisits hrefused =>
    exact (markDomainCommitPreflightFailed_spec engines _ _ _ _).2.1.toAdds.mono fun _ he ↦ he.1
  | @stale index hook out hvisits hallowed hstale hout =>
    have hmem := List.mem_set (List.getElem?_eq_some_iff.mp hvisits.get).1
      { hook with result := out }
    refine (World.Adds.refl _).log ⟨hook, List.mem_of_getElem? hvisits.get, _, hmem,
      ⟨rfl, rfl, rfl, rfl⟩, rfl, hvisits.prepared, ?_, rfl⟩
    rw [hout.1]
    rfl
  | @dependency index hook out hvisits hallowed hcurrent hblocked hout =>
    have hmem := List.mem_set (List.getElem?_eq_some_iff.mp hvisits.get).1
      { hook with result := out }
    refine (World.Adds.refl _).log ⟨hook, List.mem_of_getElem? hvisits.get, _, hmem,
      ⟨rfl, rfl, rfl, rfl⟩, rfl, hvisits.prepared, ?_, rfl⟩
    rw [hout]
    rfl
  | @single index hook hook' ledger w' hvisits hallowed hcurrent hready hcommitted =>
    have hmem' := List.mem_set (List.getElem?_eq_some_iff.mp hvisits.get).1 hook'
    have hmem := List.mem_of_getElem? hvisits.get
    obtain ⟨mid, required, published, hadds, hmid, -, -⟩ := hcommitted.world
    show st.world.Adds _ w'
    rw [hmid]
    refine (hadds.mono ?_).log ⟨hook, hmem, hook', hmem', hcommitted.same,
      hcommitted.same.hookId, hvisits.prepared,
      Outcome.isFinal_of_isVerdict hcommitted.verdict, rfl⟩
    rintro e ⟨rfl, -⟩
    exact ⟨hook, hmem, hook', hmem', hcommitted.same, rfl, hvisits.prepared, hcommitted.verdict⟩

/-- A pass only adds to the history. -/
theorem adds {engines : EngineRef → Engine ε} (h : CommitPass engines plan st flow) :
    st.world.Adds (fun _ ↦ True) flow.state.world := by
  cases h with
  | skip => exact .refl _
  | exhausted hquiet => exact hquiet.toAdds.mono fun _ ↦ False.elim
  | wave _ _ _ _ _ hcommitted => exact hcommitted.world.mono fun _ _ ↦ trivial
  | refused =>
    exact (markDomainCommitPreflightFailed_spec engines _ _ _ _).2.1.toAdds.mono fun _ _ ↦ trivial
  | stale => exact (World.Adds.refl _).log trivial
  | dependency => exact (World.Adds.refl _).log trivial
  | single _ _ _ _ hcommitted => exact hcommitted.adds

/-- Every hook a pass changes is written down as it is left. -/
theorem recorded {engines : EngineRef → Engine ε} (h : CommitPass engines plan st flow) :
    ∀ hook ∈ flow.state.hooks, hook ∈ st.hooks ∨
    hook.Recorded engines flow.state.world.history := by
  cases h with
  | skip => exact fun hook hhook ↦ .inl hhook
  | exhausted => exact fun hook hhook ↦ .inl hhook
  | wave hvisits hcount hmembers hlater hwave hcommitted =>
    intro hook hhook
    rcases writeBack_mem hhook with h | h
    · exact .inl h
    · exact .inr ⟨.group, hcommitted.recorded hook h⟩
  | refused hvisits hrefused => exact (markDomainCommitPreflightFailed_spec engines _ _ _ _).2.2
  | stale hvisits =>
    intro hook hhook
    rcases List.mem_or_eq_of_mem_set hhook with h | rfl
    · exact .inl h
    · exact .inr ⟨.single, none, 0, List.mem_cons_self⟩
  | dependency hvisits =>
    intro hook hhook
    rcases List.mem_or_eq_of_mem_set hhook with h | rfl
    · exact .inl h
    · exact .inr ⟨.single, none, 0, List.mem_cons_self⟩
  | single hvisits hallowed hcurrent hready hcommitted =>
    intro hook hhook
    obtain ⟨mid, required, published, -, hmid, -, -⟩ := hcommitted.world
    rcases List.mem_or_eq_of_mem_set hhook with h | rfl
    · exact .inl h
    · refine .inr ⟨.single, required, published, ?_⟩
      show _ ∈ World.history _
      rw [hmid]
      exact List.mem_cons_self

end CommitPass

/-! ## The call -/

/-- The state the loop starts in. -/
def CommitState.start (hooks : List Hook) (w : World ε) : CommitState ε :=
  ⟨w, hooks, .empty, 0, 0, 0, 0⟩

/-- The states in which the loop starts a pass. -/
def commitVisited (engines : EngineRef → Engine ε) (plan : CommitPlan) (hooks : List Hook)
    (w : World ε) : List (CommitState ε) :=
  Loop.visited (fun st : CommitState ε ↦ decide (st.position < plan.order.length))
    (commitIter engines plan) plan.order.length (.start hooks w)

section Loop

variable {engines : EngineRef → Engine ε} {plan : CommitPlan} {hooks : List Hook} {w : World ε}

/-- A pass from a state with as many hooks. -/
theorem commitIter_pass_of_length (hnodup : plan.order.Nodup)
    (hvalid : ∀ i ∈ plan.order, i < hooks.length) {st : CommitState ε}
    (hlength : st.hooks.length = hooks.length) :
    CommitPass engines plan st (commitIter engines plan st) ∧
      (commitIter engines plan st).state.hooks.length = hooks.length := by
  have hvalid' : ∀ i ∈ plan.order, i < st.hooks.length := fun i hi ↦ hlength ▸ hvalid i hi
  have h := commitIter_pass engines plan st hvalid'
  exact ⟨h, (h.commits hvalid' hnodup).length_eq.symm.trans hlength⟩

/-- **The rule for the loop.**  What every pass keeps holds of the state the loop ends in. -/
theorem commitLoop_induction (I : CommitState ε → Prop) (hnodup : plan.order.Nodup)
    (hvalid : ∀ i ∈ plan.order, i < hooks.length) (hstart : I (.start hooks w))
    (hpass : ∀ st ∈ commitVisited engines plan hooks w, ∀ flow, I st →
      CommitPass engines plan st flow → I flow.state) :
    I (commitLoop engines plan hooks w).state := by
  refine (Loop.run_invariant_visited (fun st ↦ I st ∧ st.hooks.length = hooks.length) _ ?_
    ⟨hstart, rfl⟩).1
  rintro st hmem ⟨hI, hlength⟩
  obtain ⟨h, hlength'⟩ := commitIter_pass_of_length hnodup hvalid hlength
  exact ⟨hpass st hmem _ hI h, hlength'⟩

/-- A pass that goes on goes forward. -/
theorem commitIter_position {st st' : CommitState ε} (h : commitIter engines plan st = .next st') :
    st.position < st'.position := by
  rw [commitIter] at h
  split at h
  · cases h
    exact Nat.lt_succ_self _
  split at h
  · cases h
    exact Nat.lt_succ_self _
  split at h
  · cases h
    exact Nat.lt_succ_self _
  dsimp only at h
  split at h
  · rename_i hcount
    rw [commitGroup] at h
    split at h
    · cases h
    dsimp only at h
    split at h
    · cases h
    · cases h
      rw [CommitState.count]
      dsimp only
      omega
  · cases h
    refine Nat.lt_succ_of_le (Nat.le_of_eq (Eq.symm ?_))
    split
    · rfl
    · rw [commitSingle]
      dsimp only
      split
      · rfl
      split
      · rfl
      · rfl

/-- A commit that is not given up reaches the end of its order. -/
theorem commitLoop_finished {st : CommitState ε} (h : commitLoop engines plan hooks w = .next st) :
    plan.order.length ≤ st.position := by
  have hmore := Loop.run_finished (fun st : CommitState ε ↦ plan.order.length - st.position)
    (fun st st' hmore hnext ↦ by
      have := commitIter_position hnext
      have := of_decide_eq_true hmore
      omega)
    (fun st hmore ↦ Nat.sub_pos_of_lt (of_decide_eq_true hmore)) (Nat.sub_le _ _) h
  exact Nat.le_of_not_lt (of_decide_eq_false hmore)

/-- The same for the states on the way, and what they pass on to the end. -/
theorem commitVisited_induction {st : CommitState ε}
    (hmem : st ∈ commitVisited engines plan hooks w)
    (I : CommitState ε → Prop) (hnodup : plan.order.Nodup)
    (hvalid : ∀ i ∈ plan.order, i < hooks.length) (hstart : I (.start hooks w))
    (hpass : ∀ st ∈ commitVisited engines plan hooks w, ∀ flow, I st →
      CommitPass engines plan st flow → I flow.state) :
    I st ∧ CommitPass engines plan st (commitIter engines plan st) ∧ ∀ J : CommitState ε → Prop,
      J (commitIter engines plan st).state →
      (∀ st ∈ commitVisited engines plan hooks w, ∀ flow, I st → J st →
        CommitPass engines plan st flow → J flow.state) →
      J (commitLoop engines plan hooks w).state := by
  obtain ⟨-, ⟨hI, hlength⟩, hend⟩ := Loop.visited_invariant
    (fun st ↦ I st ∧ st.hooks.length = hooks.length) _ hmem (fun st hmem ⟨hI, hlength⟩ ↦ by
      obtain ⟨h, hlength'⟩ := commitIter_pass_of_length hnodup hvalid hlength
      exact ⟨hpass st hmem _ hI h, hlength'⟩) ⟨hstart, rfl⟩
  refine ⟨hI, (commitIter_pass_of_length hnodup hvalid hlength).1, fun J hJ hkeep ↦
    hend J hJ fun st hmem ⟨hI, hlength⟩ hJ ↦ ?_⟩
  exact hkeep st hmem _ hI hJ (commitIter_pass_of_length hnodup hvalid hlength).1

end Loop

theorem buildCommitOrder_quiet {Q : Event → Prop} (domains : List Domain) (hooks : List Hook)
    (w : World ε) : w.Quiet Q (buildCommitOrder domains hooks w).2 := by
  rw [buildCommitOrder]
  split
  · exact .refl w
  · have hfirst : w.Quiet Q w.alloc.2 := World.quiet_alloc w
    generalize w.alloc = first at hfirst ⊢
    obtain ⟨ok, w₁⟩ := first
    cases ok with
    | false => exact hfirst
    | true =>
      dsimp only at hfirst ⊢
      split
      · exact hfirst
      · have hsecond : w.Quiet Q w₁.alloc.2 := hfirst.trans (World.quiet_alloc w₁)
        generalize w₁.alloc = second at hsecond ⊢
        obtain ⟨ok', w₂⟩ := second
        cases ok' <;> exact hsecond

theorem allocCommit_spec {Q : Event → Prop} (plan : Plan) (w : World ε) :
    w.Quiet Q (allocCommit plan w).2 ∧
      ∀ order, (allocCommit plan w).1 = some order →
        order.Nodup ∧ ∀ i ∈ order, PreparedAt plan.hooks i := by
  have hfirst : w.Quiet Q (if plan.hooks.length > 0 then w.alloc else (true, w)).2 := by
    split
    · exact World.quiet_alloc w
    · exact .refl w
  rw [allocCommit]
  generalize (if plan.hooks.length > 0 then w.alloc else (true, w)) = first at hfirst ⊢
  obtain ⟨ok, w₁⟩ := first
  cases ok with
  | false => exact ⟨hfirst, nofun⟩
  | true =>
    dsimp only at hfirst ⊢
    have hsecond : w.Quiet Q w₁.alloc.2 := hfirst.trans (World.quiet_alloc w₁)
    generalize w₁.alloc = second at hsecond ⊢
    obtain ⟨ok', w₂⟩ := second
    cases ok' with
    | false => exact ⟨hsecond, nofun⟩
    | true => exact ⟨hsecond.trans (buildCommitOrder_quiet _ _ w₂),
        fun order h ↦ buildCommitOrder_spec h⟩

theorem Runtime.appendArtifacts_spec (runtime : Runtime) (source : Ledger) (env : Env ε) :
    ∃ artifacts, (runtime.appendArtifacts source env).1 =
    { runtime with artifacts := artifacts } := by
  rw [Runtime.appendArtifacts]
  split
  · exact ⟨runtime.artifacts, rfl⟩
  · exact ⟨_, rfl⟩

theorem publishArtifacts_spec {Q : Event → Prop} (runtime : Runtime) (source : Ledger)
    (w : World ε) :
    (∃ artifacts, (publishArtifacts runtime source w).1 = { runtime with artifacts := artifacts }) ∧
      w.Quiet Q (publishArtifacts runtime source w).2 := by
  exact ⟨runtime.appendArtifacts_spec source w.env,
    (World.quiet_setEnv w _).trans (World.quiet_appendProcessLedger _ source)⟩

/-- The plan as the loop of `hk_plan_commit` sees it. -/
def Plan.toCommit (plan : Plan) (runtime : Runtime) (order : List Nat) : CommitPlan :=
  ⟨plan.planId, runtime.ownerId, plan.runtime, plan.domains, order⟩

/-- A call of `hk_plan_commit` that got as far as its loop. -/
structure CommitRan (engines : EngineRef → Engine ε) (runtime : Runtime) (plan : Plan)
    (w : World ε) (order : List Nat) (w₁ : World ε) (status : Status) (plan' : Plan)
    (runtime' : Runtime) (w' : World ε) : Prop where
  accepted : plan.state = .prepared ∨ plan.state = .partly
  allocated : allocCommit plan w = (some order, w₁)
  before : w.Quiet (fun _ ↦ False) w₁
  nodup : order.Nodup
  prepared : ∀ i ∈ order, PreparedAt plan.hooks i
  planAfter : ∃ state, plan' = { plan with
      hooks := (commitLoop engines (plan.toCommit runtime order) plan.hooks w₁).state.hooks
      state := state } ∧
    (status ≠ .ok ∧ state = plan.state ∨ status = .ok ∧
      state = (commitLoop engines (plan.toCommit runtime order) plan.hooks w₁).state.planState)
  runtimeAfter : ∃ artifacts, runtime' = { runtime with artifacts := artifacts }
  after : (commitLoop engines (plan.toCommit runtime order) plan.hooks w₁).state.world.Quiet
    (fun _ ↦ False) w'

/-- **A call of `hk_plan_commit`** is refused or runs out of memory before it does anything, or it
runs its loop. -/
theorem commitPlan_cases (runtime : Runtime) (plan : Plan) (w : World ε) :
    (∃ status w', status ≠ .ok ∧ commitPlan engines runtime plan w = (status, plan, runtime, w') ∧
        w.Quiet (fun _ ↦ False) w') ∨
      ∃ order w₁ status plan' runtime' w',
        commitPlan engines runtime plan w = (status, plan', runtime', w') ∧
          CommitRan engines runtime plan w order w₁ status plan' runtime' w' := by
  rw [commitPlan]
  split
  · exact .inl ⟨.invalidState, w, nofun, rfl, .refl w⟩
  · rename_i hstate
    have haccepted : plan.state = .prepared ∨ plan.state = .partly := by
      by_contra h
      push Not at h
      exact hstate h
    obtain ⟨hbefore, horder⟩ := allocCommit_spec (Q := fun _ ↦ False) plan w
    generalize hallocated : allocCommit plan w = allocated at hbefore horder ⊢
    obtain ⟨order?, w₁⟩ := allocated
    cases order? with
    | none => exact .inl ⟨.outOfMemory, w₁, nofun, rfl, hbefore⟩
    | some order =>
      refine .inr ?_
      dsimp only at hbefore horder ⊢
      obtain ⟨hnodup, hprepared⟩ := horder order rfl
      have hplan :
          (⟨plan.planId, runtime.ownerId, plan.runtime, plan.domains, order⟩ : CommitPlan) =
        plan.toCommit runtime order := rfl
      rw [hplan]
      cases hloop : commitLoop engines (plan.toCommit runtime order) plan.hooks w₁ with
      | stop st =>
        exact ⟨order, w₁, .outOfMemory, _, runtime, st.world, rfl, haccepted,
          hallocated, hbefore, hnodup,
          hprepared, ⟨plan.state, by rw [hloop]; rfl, .inl ⟨nofun, rfl⟩⟩, ⟨_, rfl⟩,
          by rw [hloop]; exact .refl _⟩
      | next st =>
        dsimp only
        have hreport := createReport_quiet (Q := fun _ ↦ False) plan.hooks.length st.world
        generalize createReport plan.hooks.length st.world = report at hreport ⊢
        obtain ⟨ok, w₂⟩ := report
        cases ok with
        | false =>
          exact ⟨order, w₁, .outOfMemory, _, runtime, w₂, rfl, haccepted,
            hallocated, hbefore, hnodup,
            hprepared, ⟨plan.state, by rw [hloop]; rfl, .inl ⟨nofun, rfl⟩⟩, ⟨_, rfl⟩,
            by rw [hloop]; exact hreport⟩
        | true =>
          obtain ⟨hruntime, hpublish⟩ := publishArtifacts_spec (Q := fun _ ↦ False) runtime
            st.ledger w₂
          exact ⟨order, w₁, .ok, _, _, _, rfl, haccepted, hallocated, hbefore, hnodup, hprepared,
            ⟨st.planState, by rw [hloop]; rfl, .inr ⟨rfl, by rw [hloop]; rfl⟩⟩, hruntime,
            by rw [hloop]; exact hreport.trans hpublish⟩

end HookKit
