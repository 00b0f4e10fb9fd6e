import HookKit.Core.Recording
import HookKit.Plan.Rollup
import HookKit.Plan.CommitSteps

/-!
# Inside a wave

A grouped commit cut where its engine has given its last answer: what the callbacks wrote into the
operations, and what the core makes of it member by member.

* `answerWave` — the operations after the last callback.
* `waveAnswers`, `waveStored`, `waveSettled` — a whole wave, in three parts.
* `Member.Wrote`, `Member.Stores`, `Member.RollsUp` — what becomes of one member.
-/

set_option autoImplicit false

namespace HookKit

open Loop

variable {ε : Type} (engines : EngineRef → Engine ε)

/-! ## The answers of the callbacks -/

/-- The artifacts a grouped callback records, member by member. -/
def groupRecords (callback : List Operation → Env ε → GroupAnswer × Env ε) (members : List Member)
    (w : World ε) (i : Nat) : List Artifact :=
  ((callback (members.map Member.op) w.env).1.writes i).sink.records

/-- The same, for a callback that the engine may not have. -/
def optionalRecords (callback : Option (List Operation → Env ε → GroupAnswer × Env ε))
    (members : List Member) (w : World ε) (i : Nat) : List Artifact :=
  match callback with
  | none => []
  | some callback => groupRecords callback members w i

/-- What revalidation and the commit callback record. -/
def commitRecords (engine : Engine ε) (runtime : RuntimeId) (members : List Member) (w : World ε)
    (i : Nat) : List Artifact :=
  let (revalidated, members', w') := revalidateWave engine members w
  optionalRecords engine.revalidateGroupCtx members w i ++
    if !revalidated then []
    else optionalRecords engine.commitGroupCtx members'
      (logCommitCalls engines runtime members' w') i

/-- Whether the verification callback of a wave is called. -/
def verifiesWave (engine : Engine ε) (verdict : WaveVerdict) : Bool :=
  engine.verifyGroupCtx.isSome && verdict = .committed

/-- Whether the compensation callback of a wave is called. -/
def compensatesWave (engine : Engine ε) (verdict : WaveVerdict) (verified : Bool)
    (members : List Member) : Bool :=
  engine.compensateGroupCtx.isSome &&
    (compensationNeeded verdict verified members && engine.describe.supportsCompensation)

/-- A wave after its last callback. -/
structure Answered (ε : Type) where
  /-- There was a grouped verification. -/
  verified : Bool
  /-- The compensation callback was called. -/
  restored : Bool
  members : List Member
  /-- What the callbacks recorded, member by member. -/
  records : Nat → List Artifact
  world : World ε

/-- The callbacks of a wave. -/
def answerWave (engine : Engine ε) (runtime : RuntimeId) (members : List Member) (w : World ε) :
    Answered ε :=
  let (verdict, members₁, w₁) := commitWave engines engine runtime members w
  let (verified, members₂, w₂) := verifyWave engine verdict members₁ w₁
  let (members₃, w₃) := compensateWave engine verdict verified members₂ w₂
  { verified := verified
    restored := compensatesWave engine verdict verified members₂
    members := members₃
    records := fun i ↦
      commitRecords engines engine runtime members w i ++
        ((if verifiesWave engine verdict then optionalRecords engine.verifyGroupCtx members₁ w₁ i
          else []) ++
        (if compensatesWave engine verdict verified members₂ then
          optionalRecords engine.compensateGroupCtx members₂ w₂ i
          else []))
    world := w₃ }

/-! ## The parts of a wave -/

/-- The hooks of a wave. -/
def waveHooks (plan : CommitPlan) (count : Nat) (st : CommitState ε) : List Hook :=
  hooksAt st.hooks ((plan.order.drop st.position).take count)

/-- The engine of a wave. -/
def waveEngine (hooks : List Hook) : Engine ε :=
    ((hooks.head?.map (Hook.engine engines))).getD .absent

/-- The answers of the engine, once the memory for the wave is there. -/
def waveAnswers (plan : CommitPlan) (count : Nat) (st : CommitState ε) : Answered ε :=
  let hooks := waveHooks plan count st
  let engine := waveEngine engines hooks
  answerWave engines engine plan.runtime
    (hooks.map (openOperation plan engine.revalidateGroupCtx.isNone))
    (allocMembers hooks (st.world.setEnv (st.world.env.allocAll 4).2)).2

/-- The members with their owners recorded and their artifacts in the ledger of the commit. -/
def waveStored (plan : CommitPlan) (count : Nat) (st : CommitState ε) :
    List Member × Ledger × World ε :=
  let answers := waveAnswers engines plan count st
  let (members, w) := recordMembers engines answers.members answers.world
  appendMemberLedgers members st.ledger w

/-- The settled hooks. -/
def waveSettled (plan : CommitPlan) (count : Nat) (st : CommitState ε) :
    List Hook × Ledger × World ε :=
  let (members, ledger, w) := waveStored engines plan count st
  let (settled, ledger, w) :=
    finishMembers engines plan.runtime (waveAnswers engines plan count st).verified members ledger w
  (settled, markCompensatedMembers members ledger, w)

/-- The ledger when the members are settled, before the artifacts of the compensated ones are
marked. -/
def waveFinished (plan : CommitPlan) (count : Nat) (st : CommitState ε) : Ledger :=
  let (members, ledger, w) := waveStored engines plan count st
  (finishMembers engines plan.runtime (waveAnswers engines plan count st).verified members ledger
    w).2.1

/-- A wave that got its memory. -/
theorem commitGroup_next {plan : CommitPlan} {count : Nat} {st st' : CommitState ε}
    (h : commitGroup engines plan count st = .next st') :
    st' = CommitState.count { st with
      world := (waveSettled engines plan count st).2.2
      ledger := (waveSettled engines plan count st).2.1
      hooks := writeBack st.hooks ((plan.order.drop st.position).take count)
        (waveSettled engines plan count st).1
      attempted := st.attempted + count, position := st.position + count }
      (waveSettled engines plan count st).1 := by
  rw [commitGroup] at h
  rw [waveSettled, waveStored, waveAnswers, waveHooks]
  generalize st.world.env.allocAll 4 = allocated at h ⊢
  obtain ⟨ok, env⟩ := allocated
  cases ok with
  | false => cases h
  | true =>
    dsimp only at h ⊢
    generalize allocMembers (hooksAt st.hooks ((plan.order.drop st.position).take count))
      (st.world.setEnv env) = allocated' at h ⊢
    obtain ⟨ok', w₀⟩ := allocated'
    cases ok' with
    | false => cases h
    | true => exact (Flow.next.inj h).symm

/-! ## What the callbacks leave of a member -/

theorem HookResult.Annotates.refl (out : HookResult) : out.Annotates out := ⟨_, _, _, _, rfl⟩

theorem HookResult.Annotates.trans {out₁ out₂ out₃ : HookResult} (h : out₁.Annotates out₂)
    (h' : out₂.Annotates out₃) : out₁.Annotates out₃ := by
  obtain ⟨_, _, _, _, rfl⟩ := h
  obtain ⟨_, _, _, _, rfl⟩ := h'
  exact ⟨_, _, _, _, rfl⟩

/-- The hook stays, its result gets at most an error, and its sink is written to. -/
structure Member.Wrote (m m' : Member) (records : List Artifact) : Prop where
  hook : m'.hook = m.hook
  out : m.out.Annotates m'.out
  sink : m.op.sink.Writes m'.op.sink records

/-- Every member has been written to, each with its own records. -/
def AllWrote (records : Nat → List Artifact) (members members' : List Member) : Prop :=
  members'.length = members.length ∧
    ∀ (i : Nat) (m' : Member), members'[i]? = some m' →
      ∃ m : Member, members[i]? = some m ∧ m.Wrote m' (records i)

theorem Member.Wrote.trans {m₁ m₂ m₃ : Member} {records more : List Artifact}
    (h : m₁.Wrote m₂ records) (h' : m₂.Wrote m₃ more) : m₁.Wrote m₃ (records ++ more) :=
  ⟨h'.hook.trans h.hook, h.out.trans h'.out, h.sink.trans h'.sink⟩

theorem AllWrote.refl (members : List Member) : AllWrote (fun _ ↦ []) members members :=
  ⟨rfl, fun _ m hm ↦ ⟨m, hm, rfl, .refl m.out, .refl m.op.sink⟩⟩

theorem AllWrote.trans {records more : Nat → List Artifact} {l₁ l₂ l₃ : List Member}
    (h : AllWrote records l₁ l₂) (h' : AllWrote more l₂ l₃) :
    AllWrote (fun i ↦ records i ++ more i) l₁ l₃ := by
  refine ⟨h'.1.trans h.1, fun i m₃ hm₃ ↦ ?_⟩
  obtain ⟨m₂, hm₂, hwrote'⟩ := h'.2 i m₃ hm₃
  obtain ⟨m₁, hm₁, hwrote⟩ := h.2 i m₂ hm₂
  exact ⟨m₁, hm₁, hwrote.trans hwrote'⟩

/-- A change of every member that its sink does not see. -/
theorem AllWrote.map {f : Member → Member} (hf : ∀ m : Member, m.Wrote (f m) [])
    (members : List Member) : AllWrote (fun _ ↦ []) members (members.map f) := by
  refine ⟨List.length_map f, fun i m' hm' ↦ ?_⟩
  rw [List.getElem?_map, Option.map_eq_some_iff] at hm'
  obtain ⟨m, hm, rfl⟩ := hm'
  exact ⟨m, hm, hf m⟩

theorem applyWrites_wrote (writes : Nat → OperationWrites) (offset : Nat) (members : List Member)
    (w : World ε) :
    AllWrote (fun i ↦ (writes (offset + i)).sink.records) members
      (applyWrites writes offset members w).1 := by
  induction members generalizing offset w with
  | nil => exact ⟨rfl, fun i m' hm' ↦ by simp [applyWrites] at hm'⟩
  | cons member rest ih =>
    rw [applyWrites]
    have hsink := member.op.sink.write_writes (writes offset).sink w
    dsimp only
    obtain ⟨hlength, hrest⟩ := ih (offset + 1) (member.op.sink.write (writes offset).sink w).2
    refine ⟨by rw [List.length_cons, List.length_cons, hlength], fun i m' hm' ↦ ?_⟩
    cases i with
    | zero =>
      cases hm'
      exact ⟨member, rfl, rfl, .refl _, hsink⟩
    | succ i =>
      obtain ⟨m, hm, hwrote⟩ := hrest i m' hm'
      have hoffset : offset + 1 + i = offset + (i + 1) := Nat.add_right_comm offset 1 i
      dsimp only at hwrote
      rw [hoffset] at hwrote
      exact ⟨m, hm, hwrote⟩

theorem callGroup_wrote (callback : List Operation → Env ε → GroupAnswer × Env ε)
    (members : List Member) (w : World ε) :
    AllWrote (groupRecords callback members w) members (callGroup callback members w).2.1 := by
  have h := applyWrites_wrote (callback (members.map Member.op) w.env).1.writes 0 members
    (w.setEnv (callback (members.map Member.op) w.env).2)
  simp only [Nat.zero_add] at h
  exact h

theorem failMembers_wrote (mutation : Mutation) (status : Status) (message : String)
    (members : List Member) :
    AllWrote (fun _ ↦ []) members (failMembers mutation status message members) := by
  refine AllWrote.map ?_ members
  exact fun m ↦ ⟨rfl, ⟨_, _, _, _, rfl⟩, .refl _⟩

theorem revalidateWave_wrote (engine : Engine ε) (members : List Member) (w : World ε) :
    AllWrote (optionalRecords engine.revalidateGroupCtx members w) members
      (revalidateWave engine members w).2.1 := by
  rw [revalidateWave]
  split <;> rename_i heq <;> rw [heq]
  · exact .refl members
  · exact callGroup_wrote _ members w

theorem commitWave_wrote (engine : Engine ε) (runtime : RuntimeId) (members : List Member)
    (w : World ε) :
    AllWrote (commitRecords engines engine runtime members w) members
      (commitWave engines engine runtime members w).2.1 := by
  have hrevalidate := revalidateWave_wrote engine members w
  rw [commitWave]
  unfold commitRecords
  generalize revalidateWave engine members w = r at hrevalidate ⊢
  obtain ⟨revalidated, members₁, w₁⟩ := r
  dsimp only at hrevalidate ⊢
  cases revalidated with
  | false => exact hrevalidate.trans (failMembers_wrote _ _ _ members₁)
  | true =>
    simp only [Bool.not_true, Bool.false_eq_true, if_false]
    split <;> rename_i heq
    · rw [heq]
      exact hrevalidate.trans (failMembers_wrote _ _ _ members₁)
    · rename_i commit
      rw [heq]
      have hcommit := callGroup_wrote commit members₁ (logCommitCalls engines runtime members₁ w₁)
      generalize callGroup commit members₁ (logCommitCalls engines runtime members₁ w₁) = c
        at hcommit ⊢
      obtain ⟨accepted, members₂, w₂⟩ := c
      dsimp only at hcommit ⊢
      cases accepted with
      | true => exact hrevalidate.trans hcommit
      | false =>
        have h := (hrevalidate.trans hcommit).trans
          (failMembers_wrote .unknown .internalError "group commit callback failed" members₂)
        simp only [List.append_nil] at h
        exact h

theorem verifyWave_wrote (engine : Engine ε) (verdict : WaveVerdict) (members : List Member)
    (w : World ε) :
    AllWrote (fun i ↦ if verifiesWave engine verdict then
        optionalRecords engine.verifyGroupCtx members w i else []) members
      (verifyWave engine verdict members w).2.1 := by
  unfold verifyWave verifiesWave
  cases engine.verifyGroupCtx with
  | none =>
    simp only [Option.isSome_none, Bool.false_and, Bool.false_eq_true, if_false]
    exact .refl members
  | some verify =>
    by_cases hverdict : verdict = .committed
    · simp only [hverdict, ne_eq, not_true_eq_false, if_false, Option.isSome_some, decide_true,
        Bool.and_self, if_true]
      have hverify := callGroup_wrote verify members w
      generalize callGroup verify members w = c at hverify ⊢
      obtain ⟨accepted, members₁, w₁⟩ := c
      cases accepted with
      | true => exact hverify
      | false =>
        have hfail : AllWrote (fun _ ↦ []) members₁ (members₁.map fun member ↦ { member with
            op := { member.op with verifyResult := .failed, verifyDiag := .zero } }) := by
          refine AllWrote.map ?_ members₁
          exact fun m ↦ ⟨rfl, .refl _, .refl _⟩
        have h := hverify.trans hfail
        simp only [List.append_nil] at h
        exact h
    · simp only [ne_eq, hverdict, not_false_eq_true, if_true, decide_false, Bool.and_false,
        Bool.false_eq_true, if_false]
      exact .refl members

theorem compensateWave_wrote (engine : Engine ε) (verdict : WaveVerdict) (verified : Bool)
    (members : List Member) (w : World ε) :
    AllWrote (fun i ↦ if compensatesWave engine verdict verified members then
        optionalRecords engine.compensateGroupCtx members w i else []) members
      (compensateWave engine verdict verified members w).1 := by
  unfold compensateWave compensatesWave
  cases engine.compensateGroupCtx with
  | none =>
    simp only [Option.isSome_none, Bool.false_and, Bool.false_eq_true, if_false]
    exact .refl members
  | some compensate =>
    by_cases hneeded : (compensationNeeded verdict verified members &&
        engine.describe.supportsCompensation) = true
    · simp only [Option.isSome_some, hneeded, Bool.and_self, if_true]
      have hcompensate := callGroup_wrote compensate members w
      generalize callGroup compensate members w = c at hcompensate ⊢
      obtain ⟨accepted, members₁, w₁⟩ := c
      cases accepted with
      | true => exact hcompensate
      | false =>
        have hclear : AllWrote (fun _ ↦ []) members₁ (members₁.map fun member ↦ { member with
            op := { member.op with compensated := false } }) := by
          refine AllWrote.map ?_ members₁
          exact fun m ↦ ⟨rfl, .refl _, .refl _⟩
        have h := hcompensate.trans hclear
        simp only [List.append_nil] at h
        exact h
    · simp only [Option.isSome_some, hneeded, Bool.and_false, Bool.false_eq_true, if_false]
      exact .refl members

/-- **After the last callback** every member has the records of all of them in its sink. -/
theorem answerWave_wrote (engine : Engine ε) (runtime : RuntimeId) (members : List Member)
    (w : World ε) :
    AllWrote (answerWave engines engine runtime members w).records members
      (answerWave engines engine runtime members w).members :=
  (commitWave_wrote engines engine runtime members w).trans
    ((verifyWave_wrote engine _ _ _).trans (compensateWave_wrote engine _ _ _ _))

/-! ## What the core makes of it -/

/-- Under the lock a mutation can be spoiled, and nothing else that counts changes. -/
structure Member.Records (m m' : Member) : Prop where
  hook : m'.hook = m.hook
  out : m.out.Annotates m'.out
  sink : m'.op.sink = m.op.sink
  verifyResult : m'.op.verifyResult = m.op.verifyResult
  compensated : m'.op.compensated = m.op.compensated
  mutation : m'.op.mutation = m.op.mutation ∨
    m.op.mutation = .complete ∧ m'.op.mutation = .unknown

theorem recordMember_records (member : Member) (w : World ε) :
    member.Records (recordMember engines member w).1 := by
  rw [recordMember]
  have hvalidate := validateCommitEffects_annotates engines member.hook member.op.sink member.out
  generalize hm₁ : (if member.op.sink.recordFailed = true ∧ member.op.mutation = .complete then
    Mutation.unknown else member.op.mutation) = m₁
  have h₁ : m₁ = member.op.mutation ∨ member.op.mutation = .complete ∧ m₁ = .unknown := by
    rw [← hm₁]
    split
    · rename_i h
      exact .inr ⟨h.2, rfl⟩
    · exact .inl rfl
  dsimp only
  generalize hr : (if m₁ = .complete then
      (if (validateCommitEffects engines member.hook member.op.sink member.out).1 = true then m₁
        else .unknown,
        (validateCommitEffects engines member.hook member.op.sink member.out).2)
    else (m₁, member.out)) = r
  have h₂ : (r.1 = member.op.mutation ∨ member.op.mutation = .complete ∧ r.1 = .unknown) ∧
      member.out.Annotates r.2 := by
    rw [← hr]
    split
    · rename_i hcomplete
      rw [hcomplete] at h₁ ⊢
      refine ⟨?_, hvalidate⟩
      have hreported : member.op.mutation = .complete := by
        rcases h₁ with h | ⟨h, -⟩
        · exact h.symm
        · exact h
      dsimp only
      split
      · exact .inl hreported.symm
      · exact .inr ⟨hreported, rfl⟩
    · exact ⟨h₁, .refl _⟩
  obtain ⟨hmutation, hout⟩ := h₂
  split
  · rename_i howner
    have hreported : member.op.mutation = .complete := by
      rcases hmutation with h | ⟨h, -⟩
      · rw [← h, howner.1]
      · exact h
    split
    · exact ⟨rfl, hout, rfl, rfl, rfl, hmutation⟩
    · obtain ⟨_, _, _, _, heq⟩ := hout
      refine ⟨rfl, ?_, rfl, rfl, rfl, .inr ⟨hreported, rfl⟩⟩
      rw [heq]
      exact ⟨_, _, _, _, rfl⟩
  · exact ⟨rfl, hout, rfl, rfl, rfl, hmutation⟩

theorem recordMembers_records (members : List Member) (w : World ε) :
    List.Forall₂ Member.Records members (recordMembers engines members w).1 := by
  induction members generalizing w with
  | nil => exact .nil
  | cons member rest ih => exact .cons (recordMember_records engines member w) (ih _)

/-- Only keys of members that are not compensated get a new owner. -/
theorem recordMembers_lookup {key : Key} {members : List Member}
    (h : ∀ m ∈ members, m.hook.targetKey = key → m.op.compensated = true) (w : World ε) :
    (recordMembers engines members w).2.owners.lookup key = w.owners.lookup key := by
  induction members generalizing w with
  | nil => rfl
  | cons member rest ih =>
    have hfirst : (recordMember engines member w).2.owners.lookup key = w.owners.lookup key := by
      rw [recordMember]
      generalize (if member.op.sink.recordFailed = true ∧ member.op.mutation = .complete then
        Mutation.unknown else member.op.mutation) = m₁
      dsimp only
      generalize (if m₁ = .complete then
          (if (validateCommitEffects engines member.hook member.op.sink member.out).1 = true then m₁
            else .unknown,
            (validateCommitEffects engines member.hook member.op.sink member.out).2)
        else (m₁, member.out)) = r
      split
      · rename_i howner
        have hne : key ≠ member.hook.targetKey := by
          intro heq
          rw [h member List.mem_cons_self heq.symm] at howner
          cases howner.2
        have hcases := Owners.record_cases w.owners member.hook.targetKey
          (member.hook.caps engines).engineId member.hook.spec.replacement
          member.op.sink.publishedOriginal w.env
        rw [World.recordOwner]
        generalize w.owners.record member.hook.targetKey (member.hook.caps engines).engineId
          member.hook.spec.replacement member.op.sink.publishedOriginal w.env = recorded at hcases ⊢
        obtain ⟨ok, owners, env⟩ := recorded
        rcases hcases with ⟨hok, howners⟩ | ⟨hok, howners⟩
        · dsimp only at hok howners
          subst hok howners
          rfl
        · dsimp only at hok howners
          subst hok
          exact (howners key).trans (if_neg hne)
      · rfl
    rw [recordMembers]
    exact (ih (fun m hm ↦ h m (List.mem_cons_of_mem _ hm)) _).trans hfirst

/-- A member's artifacts are in the ledger of the commit, or it counts as failed to record. -/
structure Member.Stores (m m' : Member) (base ledger : Ledger) : Prop where
  hook : m'.hook = m.hook
  out : m'.out = m.out
  mutation : m'.op.mutation = m.op.mutation
  verifyResult : m'.op.verifyResult = m.op.verifyResult
  own : m'.op.sink.ledger = m.op.sink.ledger
  effects : m'.op.sink.observedEffects = m.op.sink.observedEffects
  failed : m'.op.sink.recordFailed = false → m.op.sink.recordFailed = false
  compensated : m'.op.compensated = true ↔
    m.op.compensated = true ∧ m'.op.sink.recordFailed = false
  start : base.count ≤ m'.artifactStart ∧ m'.artifactStart ≤ ledger.count
  stored : m'.op.sink.recordFailed = false →
    m.op.sink.ledger.items <+: ledger.items.drop m'.artifactStart

/-- The artifacts behind `base` are those of the members. -/
def Laid (base ledger : Ledger) (members : List Member) : Prop :=
  base.Grows ledger ∧ ∀ i a, base.count ≤ i → ledger.items[i]? = some a → ∃ m ∈ members,
    a ∈ m.op.sink.ledger.items ∧ m.artifactStart ≤ i ∧
      i < m.artifactStart + m.op.sink.ledger.count

theorem appendMemberLedgers_stores (members : List Member) (base : Ledger) (w : World ε) :
    let r := appendMemberLedgers members base w
    List.Forall₂ (fun m m' ↦ m.Stores m' base r.2.1) members r.1 ∧ Laid base r.2.1 r.1 := by
  induction members generalizing base w with
  | nil =>
    refine ⟨.nil, .refl base, fun i a hi hget ↦ ?_⟩
    exact absurd (List.getElem?_eq_some_iff.mp hget).1 (not_lt.mpr hi)
  | cons member rest ih =>
    rw [appendMemberLedgers]
    dsimp only
    have happend := base.appendLedger_spec member.op.sink.ledger w.env
    have hgrows := base.appendLedger_grows member.op.sink.ledger w.env
    generalize base.appendLedger member.op.sink.ledger w.env = appended at happend hgrows ⊢
    obtain ⟨ok, ledger, env⟩ := appended
    dsimp only at happend hgrows ⊢
    obtain ⟨hrest, hlaid, hitems⟩ := ih ledger (w.setEnv env)
    generalize appendMemberLedgers rest ledger (w.setEnv env) = r at hrest hlaid hitems ⊢
    obtain ⟨rest', ledger', w'⟩ := r
    dsimp only at hrest hlaid hitems ⊢
    refine ⟨.cons ?_ ?_, hgrows.trans hlaid, fun i a hi hget ↦ ?_⟩
    · refine ⟨rfl, rfl, rfl, rfl, rfl, rfl, fun h ↦ ?_, ?_, ⟨le_rfl, ?_⟩, fun h ↦ ?_⟩
      · exact (Bool.or_eq_false_iff.mp h).1
      · simp
      · exact (hgrows.trans hlaid).count_le
      · -- a member that did not fail was appended, and the rest only adds behind it
        rcases happend with ⟨rfl, happended⟩ | ⟨rfl, -⟩
        · obtain ⟨more, hmore⟩ := hlaid
          rw [← hmore, happended, List.append_assoc, Ledger.count, List.drop_left]
          exact List.prefix_append _ _
        · simp at h
    · exact hrest.imp fun m m' h ↦ { h with start := ⟨hgrows.count_le.trans h.start.1, h.start.2⟩ }
    · by_cases hi' : ledger.count ≤ i
      · obtain ⟨m, hm, hrange⟩ := hitems i a hi' hget
        exact ⟨m, List.mem_cons_of_mem _ hm, hrange⟩
      · rw [not_le] at hi'
        have hget' : ledger.items[i]? = some a := by
          rw [← hget, List.prefix_iff_getElem?.mp hlaid i hi', List.getElem?_eq_getElem hi']
        rcases happend with ⟨-, happended⟩ | ⟨-, happended⟩
        · refine ⟨_, List.mem_cons_self, ?_, hi, ?_⟩
          · rw [happended, List.getElem?_append_right hi] at hget'
            exact List.mem_of_getElem? hget'
          · rw [Ledger.count, happended, List.length_append] at hi'
            exact hi'
        · rw [Ledger.count, happended] at hi'
          exact absurd hi (not_le.mpr hi')

/-! ## What is settled -/

/-- The verdict of a grouped verification, where there was one. -/
def Member.group (verified : Bool) (m : Member) : Option VerifyAnswer :=
  if verified then some ⟨m.op.verifyResult, m.op.verifyDiag⟩ else none

/-- The roll-up of a member of a wave. -/
def finishMember (runtime : RuntimeId) (verified : Bool) (m : Member) (ledger : Ledger)
    (w : World ε) : Hook × Ledger × World ε :=
  finishCommitAttempt engines .group runtime m.hook m.out ledger m.artifactStart m.op.mutation
    m.op.sink (m.group verified) false m.op.compensated w

/-- The ledger and the process in which each member of a wave is settled. -/
def finishVisited (runtime : RuntimeId) (verified : Bool) :
    List Member → Ledger → World ε → List (Ledger × World ε)
  | [], _, _ => []
  | m :: rest, ledger, w =>
    let (_, ledger', w') := finishMember engines runtime verified m ledger w
    (ledger, w) :: finishVisited runtime verified rest ledger' w'

/-- How a member is settled. -/
structure Member.RollsUp (engines : EngineRef → Engine ε) (verified : Bool) (m : Member)
    (ledger : Ledger) (w : World ε) (hook' : Hook) : Prop where
  same : m.hook.Same hook'
  verdict : hook'.result.outcome.isVerdict = true
  result : ∃ ledger', RolledUp engines m.hook m.out ledger m.artifactStart m.op.mutation m.op.sink
    (m.group verified) m.op.compensated w hook' ledger'

theorem RolledUp.grows {engines : EngineRef → Engine ε} {hook : Hook} {out : HookResult}
    {base ledger : Ledger} {artifactStart : Nat} {mutation : Mutation} {sink : Sink}
    {group : Option VerifyAnswer} {compensated : Bool} {w : World ε} {hook' : Hook}
    {ledger' : Ledger}
    (h : RolledUp engines hook out ledger artifactStart mutation sink group compensated w hook'
      ledger') (hstart : base.count ≤ artifactStart) (hbase : base.Grows ledger) :
    base.Grows ledger' := by
  cases hverified : hook'.result.verified with
  | false =>
    rw [h.unmarked hverified]
    exact hbase
  | true =>
    rw [Ledger.markVerified_eq (h.marked hverified)]
    exact Ledger.mapRange_grows hbase hstart

/-- Settling a hook marks artifacts as verified and changes nothing else about the ledger. -/
theorem RolledUp.marks {engines : EngineRef → Engine ε} {hook : Hook} {out : HookResult}
    {ledger : Ledger} {artifactStart : Nat} {mutation : Mutation} {sink : Sink}
    {group : Option VerifyAnswer} {compensated : Bool} {w : World ε} {hook' : Hook}
    {ledger' : Ledger}
    (h : RolledUp engines hook out ledger artifactStart mutation sink group compensated w hook'
      ledger') :
    List.Forall₂ (fun a b ↦ a.Marked b ∧ (b = a ∨ b.state = .verified)) ledger.items
      ledger'.items := by
  cases hverified : hook'.result.verified with
  | false =>
    rw [h.unmarked hverified]
    exact Pointwise.refl (fun a ↦ ⟨.refl a, .inl rfl⟩) _
  | true =>
    rw [Ledger.markVerified_eq (h.marked hverified)]
    refine Ledger.mapRange_forall₂ (fun a ↦ ⟨.refl a, .inl rfl⟩) fun a ↦ ⟨?_, .inr rfl⟩
    exact ⟨⟨_, _, _, _, _, _, rfl⟩, rfl⟩

/-- **How the members are settled**, one after the other. -/
theorem finishMembers_rollsUp (runtime : RuntimeId) (verified : Bool) (members : List Member)
    (ledger : Ledger) (w : World ε) :
    let r := finishMembers engines runtime verified members ledger w
    let visited := finishVisited engines runtime verified members ledger w
    r.1.length = members.length ∧
      (∀ (i : Nat) (hook' : Hook), r.1[i]? = some hook' →
        ∃ (m : Member) (l : Ledger) (w : World ε), members[i]? = some m ∧
          visited[i]? = some (l, w) ∧ l.count = ledger.count ∧
          m.RollsUp engines verified l w hook') ∧
      List.Forall₂ (fun a b ↦ a.Marked b ∧ (b = a ∨ b.state = .verified)) ledger.items r.2.1.items ∧
      ∀ base : Ledger, (∀ m ∈ members, base.count ≤ m.artifactStart) → base.Grows ledger →
        base.Grows r.2.1 := by
  induction members generalizing ledger w with
  | nil =>
    exact ⟨rfl, fun i hook' h ↦ by simp [finishMembers] at h,
      Pointwise.refl (fun a ↦ ⟨.refl a, .inl rfl⟩) _, fun base _ h ↦ h⟩
  | cons m rest ih =>
    have hrolled := finishCommitAttempt_rolledUp engines .group runtime m.hook m.out ledger
      m.artifactStart m.op.mutation m.op.sink (m.group verified) false m.op.compensated w
    have hspec := finishCommitAttempt_spec engines .group runtime m.hook m.out ledger
      m.artifactStart m.op.mutation m.op.sink (m.group verified) false m.op.compensated w
    have hsame := hspec.same
    have hverdict := hspec.verdict
    clear hspec
    have heq : finishMembers engines runtime verified (m :: rest) ledger w =
        ((finishMember engines runtime verified m ledger w).1 ::
          (finishMembers engines runtime verified rest
            (finishMember engines runtime verified m ledger w).2.1
            (finishMember engines runtime verified m ledger w).2.2).1,
          (finishMembers engines runtime verified rest
            (finishMember engines runtime verified m ledger w).2.1
            (finishMember engines runtime verified m ledger w).2.2).2) := rfl
    rw [heq, finishVisited]
    rw [← finishMember] at hrolled hsame hverdict
    generalize finishMember engines runtime verified m ledger w = finished
      at hrolled hsame hverdict ⊢
    obtain ⟨hook, ledger', w'⟩ := finished
    dsimp only at hrolled hsame hverdict ⊢
    obtain ⟨hlength, hget, hmarks, hgrows⟩ := ih ledger' w'
    have hmarks' := hrolled.marks
    refine ⟨by rw [List.length_cons, List.length_cons, hlength], fun i hook' h ↦ ?_, ?_,
      fun base hstarts hbase ↦ ?_⟩
    · cases i with
      | zero =>
        cases h
        exact ⟨m, ledger, w, rfl, rfl, rfl, hsame, hverdict, ledger', hrolled⟩
      | succ i =>
        obtain ⟨m', l, w₁, hm', hvisited, hcount, hrolls⟩ := hget i hook' h
        refine ⟨m', l, w₁, hm', hvisited, hcount.trans ?_, hrolls⟩
        exact hmarks'.length_eq.symm
    · refine Pointwise.trans (fun a b c h h' ↦ ⟨h.1.trans h'.1, ?_⟩) hmarks' hmarks
      rcases h'.2 with rfl | h'
      · exact h.2
      · exact .inr h'
    · exact hgrows base (fun m' hm' ↦ hstarts m' (List.mem_cons_of_mem m hm'))
        (hrolled.grows (hstarts m List.mem_cons_self) hbase)

/-- The roll-up in the process `w` finds the member's mutation in order, and verified. -/
def Member.Verifies (engines : EngineRef → Engine ε) (verified : Bool) (m : Member) (w : World ε) :
    Prop :=
  Trusted engines m.hook m.op.mutation m.op.sink ∧ m.hook.matchedEngine ≠ none ∧
    verdictOf engines m.hook (m.group verified) w = .ok

/-- **What the roll-ups of a wave mark as verified.**  A member that is verified marks the ledger
from its own artifacts to the end, those of the members behind it included. -/
theorem finishMembers_verified (runtime : RuntimeId) (verified : Bool) (members : List Member)
    (ledger : Ledger) (w : World ε) {j : Nat} {a : Artifact} (ha : ledger.items[j]? = some a) :
    let visited := finishVisited engines runtime verified members ledger w
    ∃ b, (finishMembers engines runtime verified members ledger w).2.1.items[j]? = some b ∧
      ((∃ (k : Nat) (m : Member) (l : Ledger) (w : World ε), members[k]? = some m ∧
          visited[k]? = some (l, w) ∧ m.artifactStart ≤ j ∧ m.Verifies engines verified w) ∧
          b.state = .verified ∨
        (∀ (k : Nat) (m : Member) (l : Ledger) (w : World ε), members[k]? = some m →
          visited[k]? = some (l, w) → m.artifactStart ≤ j → ¬m.Verifies engines verified w) ∧
          b = a) := by
  induction members generalizing ledger w a with
  | nil => exact ⟨a, ha, .inr ⟨fun k m l w h ↦ by simp at h, rfl⟩⟩
  | cons m rest ih =>
    have hlt : j < ledger.count := (List.getElem?_eq_some_iff.mp ha).1
    have hrolled := finishCommitAttempt_rolledUp engines .group runtime m.hook m.out ledger
      m.artifactStart m.op.mutation m.op.sink (m.group verified) false m.op.compensated w
    have heq : (finishMembers engines runtime verified (m :: rest) ledger w).2 =
        (finishMembers engines runtime verified rest
          (finishMember engines runtime verified m ledger w).2.1
          (finishMember engines runtime verified m ledger w).2.2).2 := rfl
    rw [heq, finishVisited]
    rw [← finishMember] at hrolled
    generalize finishMember engines runtime verified m ledger w = finished at hrolled ⊢
    obtain ⟨hook, ledger', w'⟩ := finished
    dsimp only at hrolled ⊢
    by_cases hmarks : m.artifactStart ≤ j ∧ m.Verifies engines verified w
    · -- the member marks the artifact, and whatever the rest does leaves it verified
      obtain ⟨hstart, htrusted, hmatched, hok⟩ := hmarks
      have hyes := hrolled.verified.mpr ⟨htrusted, hmatched, hok, hstart.trans hlt.le⟩
      have hget : ledger'.items[j]? = some { a with state := .verified, verified := true } := by
        rw [Ledger.markVerified_eq (hrolled.marked hyes), Ledger.mapRange_getElem?, ha,
          Option.map_some, if_pos (by omega)]
      obtain ⟨b, hb, hcases⟩ := ih ledger' w' hget
      refine ⟨b, hb, .inl ⟨⟨0, m, ledger, w, rfl, rfl, hstart, htrusted, hmatched, hok⟩, ?_⟩⟩
      rcases hcases with ⟨-, hstate⟩ | ⟨-, rfl⟩
      · exact hstate
      · rfl
    · have hget : ledger'.items[j]? = some a := by
        cases hverified : hook.result.verified with
        | false => rw [hrolled.unmarked hverified, ha]
        | true =>
          obtain ⟨htrusted, hmatched, hok, -⟩ := hrolled.verified.mp hverified
          have hstart : ¬m.artifactStart ≤ j := fun h ↦ hmarks ⟨h, htrusted, hmatched, hok⟩
          rw [Ledger.markVerified_eq (hrolled.marked hverified), Ledger.mapRange_getElem?, ha,
            Option.map_some, if_neg (by omega)]
      obtain ⟨b, hb, hcases⟩ := ih ledger' w' hget
      refine ⟨b, hb, hcases.imp (.imp_left ?_) (.imp_left ?_)⟩
      · rintro ⟨k, m', l, w₁, hm', hvisited, hrest⟩
        exact ⟨k + 1, m', l, w₁, hm', hvisited, hrest⟩
      · intro hno k m' l w₁ hm' hvisited hstart
        cases k with
        | zero =>
          cases hm'
          cases hvisited
          exact fun h ↦ hmarks ⟨hstart, h⟩
        | succ k => exact hno k m' l w₁ hm' hvisited hstart

/-! ## The marks -/

/-- The core marks what the member recorded. -/
def Member.marks (m : Member) : Prop :=
  m.op.compensated = true ∧ m.op.mutation ≠ .none ∧ m.op.sink.recordFailed = false

/-- An artifact that was taken back. -/
def Artifact.TakenBack (a : Artifact) : Prop := a.state = .compensated ∧ a.verified = false

/-- **The marking loop.**  Everything a marking member recorded is marked, and nothing else is. -/
theorem markCompensatedMembers_spec (members : List Member) (ledger : Ledger)
    (hrange : ∀ m ∈ members, m.marks → m.artifactStart + m.op.sink.ledger.count ≤ ledger.count) :
    let r := markCompensatedMembers members ledger
    (∀ i a, r.items[i]? = some a → ∃ b, ledger.items[i]? = some b ∧ b.Marked a ∧
      ((∃ m ∈ members, m.marks ∧ m.artifactStart ≤ i ∧
          i < m.artifactStart + m.op.sink.ledger.count) ∧ a.TakenBack ∨
        (∀ m ∈ members, m.marks → ¬(m.artifactStart ≤ i ∧
          i < m.artifactStart + m.op.sink.ledger.count)) ∧ a = b)) ∧
      r.count = ledger.count ∧
      ∀ base : Ledger, (∀ m ∈ members, base.count ≤ m.artifactStart) → base.Grows ledger →
        base.Grows r := by
  induction members generalizing ledger with
  | nil =>
    refine ⟨fun i a h ↦ ⟨a, h, .refl a, .inr ⟨?_, rfl⟩⟩, rfl, fun base _ h ↦ h⟩
    exact fun m hm ↦ absurd hm List.not_mem_nil
  | cons m rest ih =>
    rw [markCompensatedMembers]
    by_cases hmarks : m.marks
    · have hcond : m.op.compensated = true ∧ m.op.mutation ≠ .none ∧
          (!m.op.sink.recordFailed) = true := ⟨hmarks.1, hmarks.2.1, by rw [hmarks.2.2]; rfl⟩
      have hmarked := Ledger.markCompensated_eq (hrange m List.mem_cons_self hmarks)
      rw [if_pos hcond, hmarked, Option.getD_some]
      have hcount := Ledger.mapRange_count ledger m.artifactStart m.op.sink.ledger.count
        fun a ↦ { a with state := .compensated, verified := false }
      obtain ⟨hget, hcount', hgrows⟩ := ih (ledger.mapRange m.artifactStart m.op.sink.ledger.count
        fun a ↦ { a with state := .compensated, verified := false }) fun m' hm' h' ↦ by
          rw [hcount]
          exact hrange m' (List.mem_cons_of_mem m hm') h'
      refine ⟨fun i a h ↦ ?_, hcount'.trans hcount, fun base hstarts hbase ↦ ?_⟩
      · obtain ⟨b, hb, hab, hcases⟩ := hget i a h
        rw [Ledger.mapRange_getElem?, Option.map_eq_some_iff] at hb
        obtain ⟨c, hc, rfl⟩ := hb
        refine ⟨c, hc, ?_⟩
        split at hab
        · rename_i hin
          have hmarked' : c.Marked { c with state := .compensated, verified := false } :=
            ⟨⟨_, _, _, _, _, _, rfl⟩, rfl⟩
          refine ⟨hmarked'.trans hab, .inl ⟨⟨m, List.mem_cons_self, hmarks, hin⟩, ?_⟩⟩
          rcases hcases with ⟨-, htaken⟩ | ⟨-, rfl⟩
          · exact htaken
          · rw [if_pos hin]
            exact ⟨rfl, rfl⟩
        · rename_i hout
          refine ⟨hab, ?_⟩
          rcases hcases with ⟨⟨m', hm', h'⟩, htaken⟩ | ⟨hno, rfl⟩
          · exact .inl ⟨⟨m', List.mem_cons_of_mem m hm', h'⟩, htaken⟩
          · refine .inr ⟨fun m' hm' h' ↦ ?_, if_neg hout⟩
            rcases List.mem_cons.mp hm' with rfl | hm'
            · exact hout
            · exact hno m' hm' h'
      · exact hgrows base (fun m' hm' ↦ hstarts m' (List.mem_cons_of_mem m hm'))
          (Ledger.mapRange_grows hbase (hstarts m List.mem_cons_self))
    · have hcond : ¬(m.op.compensated = true ∧ m.op.mutation ≠ .none ∧
          (!m.op.sink.recordFailed) = true) := fun h ↦ hmarks ⟨h.1, h.2.1, by simpa using h.2.2⟩
      rw [if_neg hcond]
      obtain ⟨hget, hcount, hgrows⟩ := ih ledger fun m' hm' ↦ hrange m' (List.mem_cons_of_mem m hm')
      refine ⟨fun i a h ↦ ?_, hcount, fun base hstarts hbase ↦
        hgrows base (fun m' hm' ↦ hstarts m' (List.mem_cons_of_mem m hm')) hbase⟩
      obtain ⟨b, hb, hab, hcases⟩ := hget i a h
      refine ⟨b, hb, hab, ?_⟩
      rcases hcases with ⟨⟨m', hm', h'⟩, htaken⟩ | ⟨hno, rfl⟩
      · exact .inl ⟨⟨m', List.mem_cons_of_mem m hm', h'⟩, htaken⟩
      · refine .inr ⟨fun m' hm' h' ↦ ?_, rfl⟩
        rcases List.mem_cons.mp hm' with rfl | hm'
        · exact absurd h' hmarks
        · exact hno m' hm' h'

/-! ## One member's way through the wave -/

/-- The ledger and the process in which the members of a wave are settled. -/
def waveVisited (plan : CommitPlan) (count : Nat) (st : CommitState ε) :
    List (Ledger × World ε) :=
  let (members, ledger, w) := waveStored engines plan count st
  finishVisited engines plan.runtime (waveAnswers engines plan count st).verified members ledger w

/-- The hook at a position of the wave, its operation after the last callback, its operation when
its artifacts are stored, and the hook as it is settled, in the ledger `l` and the process `w`. -/
structure SettledMember (engines : EngineRef → Engine ε) (plan : CommitPlan) (count : Nat)
    (st : CommitState ε) (i : Nat) (hook : Hook) (m m' : Member) (l : Ledger) (w : World ε)
    (hook' : Hook) : Prop where
  hookAt : (waveHooks plan count st)[i]? = some hook
  answeredAt : (waveAnswers engines plan count st).members[i]? = some m
  storedAt : (waveStored engines plan count st).1[i]? = some m'
  visitedAt : (waveVisited engines plan count st)[i]? = some (l, w)
  settledAt : (waveSettled engines plan count st).1[i]? = some hook'
  same : m.hook = hook
  out : hook.result.Annotates m.out
  sink : (openOperation plan (waveEngine engines
      (waveHooks plan count st)).revalidateGroupCtx.isNone hook).op.sink.Writes m.op.sink
    ((waveAnswers engines plan count st).records i)
  recorded : ∃ mid, m.Records mid ∧
    mid.Stores m' st.ledger (waveStored engines plan count st).2.1
  ledger : l.count = (waveStored engines plan count st).2.1.count
  rollsUp : m'.RollsUp engines (waveAnswers engines plan count st).verified l w hook'

/-- Every settled hook is a member's. -/
theorem settledMember {plan : CommitPlan} {count : Nat} {st : CommitState ε}
    {i : Nat} {hook' : Hook}
    (h : (waveSettled engines plan count st).1[i]? = some hook') :
    ∃ hook m m' l w, SettledMember engines plan count st i hook m m' l w hook' := by
  have hanswers := answerWave_wrote engines (waveEngine engines (waveHooks plan count st))
    plan.runtime ((waveHooks plan count st).map
      (openOperation plan (waveEngine engines
        (waveHooks plan count st)).revalidateGroupCtx.isNone))
    (allocMembers (waveHooks plan count st) (st.world.setEnv (st.world.env.allocAll 4).2)).2
  have hrecords := recordMembers_records engines (waveAnswers engines plan count st).members
    (waveAnswers engines plan count st).world
  obtain ⟨hstores, -⟩ := appendMemberLedgers_stores
    (recordMembers engines (waveAnswers engines plan count st).members
      (waveAnswers engines plan count st).world).1 st.ledger
    (recordMembers engines (waveAnswers engines plan count st).members
      (waveAnswers engines plan count st).world).2
  obtain ⟨-, hfinish, -, -⟩ := finishMembers_rollsUp engines plan.runtime
    (waveAnswers engines plan count st).verified (waveStored engines plan count st).1
    (waveStored engines plan count st).2.1 (waveStored engines plan count st).2.2
  obtain ⟨m', l, w, hm', hvisited, hcount, hrolls⟩ := hfinish i hook' h
  obtain ⟨mid, hmid, hstores⟩ := Pointwise.getElem?_right hstores hm'
  obtain ⟨m, hm, hrecords⟩ := Pointwise.getElem?_right hrecords hmid
  obtain ⟨m₀, hm₀, hwrote⟩ := hanswers.2 i m hm
  rw [List.getElem?_map, Option.map_eq_some_iff] at hm₀
  obtain ⟨hook, hhook, rfl⟩ := hm₀
  exact ⟨hook, m, m', l, w, hhook, hm, hm', hvisited, h, hwrote.hook, hwrote.out, hwrote.sink,
    ⟨mid, hrecords, hstores⟩, hcount, hrolls⟩

/-- Every stored member is settled. -/
theorem settledMember_of_stored {plan : CommitPlan} {count : Nat} {st : CommitState ε} {i : Nat}
    {m' : Member} (h : (waveStored engines plan count st).1[i]? = some m') :
    ∃ hook m l w hook', SettledMember engines plan count st i hook m m' l w hook' := by
  obtain ⟨hlength, -⟩ := finishMembers_rollsUp engines plan.runtime
    (waveAnswers engines plan count st).verified (waveStored engines plan count st).1
    (waveStored engines plan count st).2.1 (waveStored engines plan count st).2.2
  have hlt : i < (waveSettled engines plan count st).1.length :=
    lt_of_lt_of_eq (List.getElem?_eq_some_iff.mp h).1 hlength.symm
  obtain ⟨hook, m, m'', l, w, hsettled⟩ :=
    settledMember engines (List.getElem?_eq_getElem hlt)
  obtain rfl := Option.some.inj (h.symm.trans hsettled.storedAt)
  exact ⟨hook, m, l, w, _, hsettled⟩

namespace SettledMember

variable {engines} {plan : CommitPlan} {count : Nat} {st : CommitState ε} {i : Nat}
  {hook hook' : Hook} {m m' : Member} {l : Ledger} {w : World ε}

theorem storedHook (h : SettledMember engines plan count st i hook m m' l w hook') :
    m'.hook = hook := by
  obtain ⟨mid, hrecords, hstores⟩ := h.recorded
  rw [hstores.hook, hrecords.hook, h.same]

/-- What was added to the sink of a member belongs to its hook. -/
theorem requestId (h : SettledMember engines plan count st i hook m m' l w hook') :
    ∀ a ∈ m'.op.sink.ledger.items, a.requestId = hook.hookId := by
  obtain ⟨mid, hrecords, hstores⟩ := h.recorded
  rw [hstores.own, hrecords.sink]
  obtain ⟨more, hitems, hstamped⟩ := h.sink.added
  rw [hitems]
  exact hstamped

/-- The final mutation was reported, or it is unknown. -/
theorem mutation (h : SettledMember engines plan count st i hook m m' l w hook') :
    m'.op.mutation = m.op.mutation ∨ m'.op.mutation = .unknown := by
  obtain ⟨mid, hrecords, hstores⟩ := h.recorded
  rw [hstores.mutation]
  exact hrecords.mutation.imp id And.right

theorem effects (h : SettledMember engines plan count st i hook m m' l w hook') :
    m'.op.sink.observedEffects = m.op.sink.observedEffects := by
  obtain ⟨mid, hrecords, hstores⟩ := h.recorded
  rw [hstores.effects, hrecords.sink]

end SettledMember

/-! ## The ledger behind the wave -/

/-- A marking member's artifacts are where the marking loop looks for them. -/
theorem SettledMember.range {engines : EngineRef → Engine ε} {plan : CommitPlan} {count : Nat}
    {st : CommitState ε} {i : Nat} {hook hook' : Hook} {m m' : Member} {l : Ledger} {w : World ε}
    (h : SettledMember engines plan count st i hook m m' l w hook')
    (hok : m'.op.sink.recordFailed = false) :
    m'.artifactStart + m'.op.sink.ledger.count ≤
      (waveStored engines plan count st).2.1.count := by
  obtain ⟨mid, -, hstores⟩ := h.recorded
  have hlength := List.IsPrefix.length_le (hstores.stored hok)
  have hstart := hstores.start.2
  rw [List.length_drop] at hlength
  rw [hstores.own]
  have hcount : mid.op.sink.ledger.count = mid.op.sink.ledger.items.length := rfl
  have hcount' : (waveStored engines plan count st).2.1.count =
    (waveStored engines plan count st).2.1.items.length := rfl
  omega

/-- The range of a member that could be stored holds what it recorded. -/
theorem SettledMember.own_getElem? {engines : EngineRef → Engine ε} {plan : CommitPlan}
    {count : Nat} {st : CommitState ε} {i : Nat} {hook hook' : Hook} {m m' : Member} {l : Ledger}
    {w : World ε} (h : SettledMember engines plan count st i hook m m' l w hook')
    (hok : m'.op.sink.recordFailed = false) {n : Nat} (hn : n < m'.op.sink.ledger.count) :
    (waveStored engines plan count st).2.1.items[m'.artifactStart + n]? =
      m'.op.sink.ledger.items[n]? := by
  obtain ⟨mid, -, hstores⟩ := h.recorded
  have hpre := hstores.stored hok
  rw [← hstores.own] at hpre
  have hget := List.prefix_iff_getElem?.mp hpre n hn
  rw [List.getElem?_drop] at hget
  rw [hget, List.getElem?_eq_getElem hn]

theorem SettledMember.own_item {engines : EngineRef → Engine ε} {plan : CommitPlan} {count : Nat}
    {st : CommitState ε} {i : Nat} {hook hook' : Hook} {m m' : Member} {l : Ledger} {w : World ε}
    (h : SettledMember engines plan count st i hook m m' l w hook')
    (hok : m'.op.sink.recordFailed = false) {j : Nat} {a : Artifact}
    (hin : m'.artifactStart ≤ j ∧ j < m'.artifactStart + m'.op.sink.ledger.count)
    (ha : (waveStored engines plan count st).2.1.items[j]? = some a) :
    a ∈ m'.op.sink.ledger.items := by
  obtain ⟨n, rfl⟩ := Nat.exists_eq_add_of_le hin.1
  rw [h.own_getElem? hok (by omega)] at ha
  exact List.mem_of_getElem? ha

/-- Settling the members marks artifacts as verified. -/
theorem waveFinished_marks (plan : CommitPlan) (count : Nat) (st : CommitState ε) :
    List.Forall₂ (fun a b ↦ a.Marked b ∧ (b = a ∨ b.state = .verified))
      (waveStored engines plan count st).2.1.items (waveFinished engines plan count st).items :=
  (finishMembers_rollsUp engines plan.runtime (waveAnswers engines plan count st).verified
    (waveStored engines plan count st).1 (waveStored engines plan count st).2.1
    (waveStored engines plan count st).2.2).2.2.1

theorem settledMember_of_mem {plan : CommitPlan} {count : Nat} {st : CommitState ε} {m' : Member}
    (h : m' ∈ (waveStored engines plan count st).1) : ∃ i hook m l w hook',
      SettledMember engines plan count st i hook m m' l w hook' := by
  obtain ⟨i, hi⟩ := List.getElem?_of_mem h
  obtain ⟨hook, m, l, w, hook', hs⟩ := settledMember_of_stored engines hi
  exact ⟨i, hook, m, l, w, hook', hs⟩

/-- The marking loop finds the artifacts of every member it marks. -/
theorem waveSettled_marks (plan : CommitPlan) (count : Nat) (st : CommitState ε) :
    (∀ i a, (waveSettled engines plan count st).2.1.items[i]? = some a →
      ∃ b, (waveFinished engines plan count st).items[i]? = some b ∧ b.Marked a ∧
      ((∃ m ∈ (waveStored engines plan count st).1, m.marks ∧ m.artifactStart ≤ i ∧
          i < m.artifactStart + m.op.sink.ledger.count) ∧ a.TakenBack ∨
        (∀ m ∈ (waveStored engines plan count st).1, m.marks → ¬(m.artifactStart ≤ i ∧
          i < m.artifactStart + m.op.sink.ledger.count)) ∧ a = b)) ∧
      (waveSettled engines plan count st).2.1.count = (waveFinished engines plan count st).count ∧
      ∀ base : Ledger,
        (∀ m ∈ (waveStored engines plan count st).1, base.count ≤ m.artifactStart) →
          base.Grows (waveFinished engines plan count st) →
            base.Grows (waveSettled engines plan count st).2.1 := by
  refine markCompensatedMembers_spec (waveStored engines plan count st).1
    (waveFinished engines plan count st) fun m hm hmarks ↦ ?_
  obtain ⟨_, _, _, _, _, _, h⟩ := settledMember_of_mem engines hm
  exact (h.range hmarks.2.2).trans_eq (waveFinished_marks engines plan count st).length_eq

/-- **The ledger a wave leaves.**  Behind the old artifacts are those of the members. -/
theorem waveSettled_ledger (plan : CommitPlan) (count : Nat) (st : CommitState ε) :
    st.ledger.Grows (waveSettled engines plan count st).2.1 ∧
    ∀ j a, st.ledger.count ≤ j → (waveSettled engines plan count st).2.1.items[j]? = some a →
      ∃ m ∈ (waveStored engines plan count st).1, (m.artifactStart ≤ j ∧
        j < m.artifactStart + m.op.sink.ledger.count) ∧ a.requestId = m.hook.hookId := by
  have hlaid := (appendMemberLedgers_stores
    (recordMembers engines (waveAnswers engines plan count st).members
      (waveAnswers engines plan count st).world).1 st.ledger
    (recordMembers engines (waveAnswers engines plan count st).members
      (waveAnswers engines plan count st).world).2).2
  have hgrows := (finishMembers_rollsUp engines plan.runtime
    (waveAnswers engines plan count st).verified (waveStored engines plan count st).1
    (waveStored engines plan count st).2.1 (waveStored engines plan count st).2.2).2.2.2
  obtain ⟨hget, -, hgrows'⟩ := waveSettled_marks engines plan count st
  have hstarts : ∀ m ∈ (waveStored engines plan count st).1,
      st.ledger.count ≤ m.artifactStart := by
    intro m hm
    obtain ⟨_, _, _, _, _, _, h⟩ := settledMember_of_mem engines hm
    obtain ⟨mid, -, hstores⟩ := h.recorded
    exact hstores.start.1
  refine ⟨hgrows' st.ledger hstarts (hgrows st.ledger hstarts hlaid.1), fun j a hj ha ↦ ?_⟩
  obtain ⟨b, hb, hba, -⟩ := hget j a ha
  obtain ⟨c, hc, hcb, -⟩ := Pointwise.getElem?_right (waveFinished_marks engines plan count st) hb
  obtain ⟨m, hm, hown, hin⟩ := hlaid.2 j c hj hc
  obtain ⟨_, _, _, _, _, _, h⟩ := settledMember_of_mem engines hm
  refine ⟨m, hm, hin, ?_⟩
  rw [hba.requestId, hcb.requestId, h.requestId c hown, h.storedHook]

theorem waveStored_length (plan : CommitPlan) (count : Nat) (st : CommitState ε) :
    (waveStored engines plan count st).1.length = (waveHooks plan count st).length := by
  have hanswers := answerWave_wrote engines (waveEngine engines (waveHooks plan count st))
    plan.runtime ((waveHooks plan count st).map
      (openOperation plan (waveEngine engines
        (waveHooks plan count st)).revalidateGroupCtx.isNone))
    (allocMembers (waveHooks plan count st) (st.world.setEnv (st.world.env.allocAll 4).2)).2
  have hrecords := recordMembers_records engines (waveAnswers engines plan count st).members
    (waveAnswers engines plan count st).world
  have hstores := (appendMemberLedgers_stores
    (recordMembers engines (waveAnswers engines plan count st).members
      (waveAnswers engines plan count st).world).1 st.ledger
    (recordMembers engines (waveAnswers engines plan count st).members
      (waveAnswers engines plan count st).world).2).1
  have hlength : (waveAnswers engines plan count st).members.length =
      (waveHooks plan count st).length := hanswers.1.trans (List.length_map _)
  exact (hstores.length_eq.symm.trans hrecords.length_eq.symm).trans hlength

theorem waveSettled_length (plan : CommitPlan) (count : Nat) (st : CommitState ε) :
    (waveSettled engines plan count st).1.length = (waveHooks plan count st).length := by
  have hfinish := (finishMembers_rollsUp engines plan.runtime
    (waveAnswers engines plan count st).verified (waveStored engines plan count st).1
    (waveStored engines plan count st).2.1 (waveStored engines plan count st).2.2).1
  exact hfinish.trans (waveStored_length engines plan count st)

/-- Every settled hook of a wave is in the plan. -/
theorem waveSettled_mem {plan : CommitPlan} {count : Nat} {st : CommitState ε}
    (hvalid : ∀ i ∈ plan.order, i < st.hooks.length) (hnodup : plan.order.Nodup) :
    (waveSettled engines plan count st).1 ⊆
      writeBack st.hooks ((plan.order.drop st.position).take count)
        (waveSettled engines plan count st).1 := by
  refine mem_writeBack (fun i hi ↦ hvalid i (List.mem_of_mem_drop (List.mem_of_mem_take hi)))
    ((hnodup.sublist (List.drop_sublist _ _)).sublist (List.take_sublist _ _)) ?_
  rw [waveSettled_length]
  exact List.length_filterMap_le _ _

/-! ## Who is in the wave -/

theorem waveAnswers_hooks (plan : CommitPlan) (count : Nat) (st : CommitState ε) :
    (waveAnswers engines plan count st).members.map Member.hook = waveHooks plan count st := by
  have hanswers := answerWave_wrote engines (waveEngine engines (waveHooks plan count st))
    plan.runtime ((waveHooks plan count st).map
      (openOperation plan (waveEngine engines
        (waveHooks plan count st)).revalidateGroupCtx.isNone))
    (allocMembers (waveHooks plan count st) (st.world.setEnv (st.world.env.allocAll 4).2)).2
  have hlength : (waveAnswers engines plan count st).members.length =
      (waveHooks plan count st).length := hanswers.1.trans (List.length_map _)
  refine List.ext_getElem? fun i ↦ ?_
  rw [List.getElem?_map]
  cases hm : (waveAnswers engines plan count st).members[i]? with
  | none =>
    rw [List.getElem?_eq_none_iff, hlength] at hm
    exact (List.getElem?_eq_none hm).symm
  | some m =>
    obtain ⟨m₀, hm₀, hwrote⟩ := hanswers.2 i m hm
    rw [List.getElem?_map, Option.map_eq_some_iff] at hm₀
    obtain ⟨hook, hhook, rfl⟩ := hm₀
    rw [hhook, Option.map_some, hwrote.hook]
    rfl

theorem waveStored_hooks (plan : CommitPlan) (count : Nat) (st : CommitState ε) :
    (waveStored engines plan count st).1.map Member.hook = waveHooks plan count st := by
  refine List.ext_getElem? fun i ↦ ?_
  rw [List.getElem?_map]
  cases hm : (waveStored engines plan count st).1[i]? with
  | none =>
    rw [List.getElem?_eq_none_iff, waveStored_length] at hm
    exact (List.getElem?_eq_none hm).symm
  | some m =>
    obtain ⟨hook, m₀, l, w, hook', h⟩ := settledMember_of_stored engines hm
    rw [h.hookAt, Option.map_some, h.storedHook]

/-- Members of one wave are told apart by the identifiers of their hooks. -/
theorem members_inj {members : List Member} {hooks : List Hook}
    (hhooks : members.map Member.hook = hooks) (hids : (hooks.map Hook.hookId).Nodup)
    {m m' : Member}
    (hm : m ∈ members) (hm' : m' ∈ members) (h : m.hook.hookId = m'.hook.hookId) : m = m' := by
  have hnodup : (members.map fun m ↦ m.hook.hookId).Nodup := by
    rw [← hhooks, List.map_map] at hids
    exact hids
  exact List.inj_on_of_nodup_map hnodup hm hm' h

theorem commitWaveLength_keys (owners : Owners) (generation : Nat) (first : Hook)
    (previous rest : List Hook) (h : (previous.map Hook.targetKey).Nodup) :
    ((previous ++ rest.take (commitWaveLength owners generation first previous rest)).map
      Hook.targetKey).Nodup := by
  induction rest generalizing previous with
  | nil =>
    rw [List.take_nil, List.append_nil]
    exact h
  | cons hook rest ih =>
    rw [commitWaveLength]
    split
    · rename_i hjoins
      rw [Bool.and_eq_true] at hjoins
      obtain ⟨-, -, -, -, -, hnew⟩ := joinsCommitWave_spec hjoins.1
      rw [Nat.add_comm, List.take_succ_cons, List.append_cons]
      refine ih (previous ++ [hook]) ?_
      rw [List.map_append, List.nodup_append]
      refine ⟨h, List.nodup_singleton _, fun key hkey key' hkey' ↦ ?_⟩
      obtain ⟨earlier, hearlier, rfl⟩ := List.mem_map.mp hkey
      rw [List.mem_singleton.mp hkey']
      exact hnew earlier hearlier
    · rw [List.take_zero, List.append_nil]
      exact h

/-- Nobody hooks one target twice in a wave. -/
theorem commitGroupCount_keys {engines : EngineRef → Engine ε} {owners : Owners} {generation : Nat}
    {hooks : List Hook} (h : 1 < commitGroupCount engines owners generation hooks) :
    ((hooks.take (commitGroupCount engines owners generation hooks)).map Hook.targetKey).Nodup := by
  cases hooks with
  | nil => simp [commitGroupCount] at h
  | cons first rest =>
    rw [commitGroupCount] at h ⊢
    split at h
    · rename_i hstarts
      rw [if_pos hstarts]
      dsimp only at h ⊢
      split at h
      · rename_i hcount
        rw [if_pos hcount, Nat.add_comm, List.take_succ_cons]
        exact commitWaveLength_keys owners generation first [first] rest (List.nodup_singleton _)
      · omega
    · omega

/-- A pass of the loop that commits a wave. -/
structure WavePass (engines : EngineRef → Engine ε) (plan : CommitPlan) (count : Nat)
    (st st' : CommitState ε) : Prop where
  visits : ∃ index hook, Visits plan st index hook
  selected : count = commitGroupCount engines st.world.owners (st.world.env.generation plan.runtime)
    (hooksAt st.hooks (plan.order.drop st.position))
  many : 1 < count
  next : commitGroup engines plan count st = .next st'

namespace WavePass

variable {engines} {plan : CommitPlan} {count : Nat} {st st' : CommitState ε}

theorem iter (h : WavePass engines plan count st st') :
    commitIter engines plan st = .next st' := by
  obtain ⟨index, hook, horder, hget, hprepared⟩ := h.visits
  have hmany := h.many
  have hnext := h.next
  rw [h.selected] at hmany hnext
  rw [commitIter, horder]
  dsimp only
  rw [hget]
  dsimp only
  rw [if_neg (not_not.mpr hprepared), if_pos hmany, hnext]

/-- The hook in front is a member. -/
theorem nonempty (h : WavePass engines plan count st st') :
    ∃ hook, hook ∈ waveHooks plan count st := by
  obtain ⟨index, hook, horder, hget, -⟩ := h.visits
  obtain ⟨hlt, hindex⟩ := List.getElem?_eq_some_iff.mp horder
  obtain ⟨n, rfl⟩ := Nat.exists_eq_succ_of_ne_zero (Nat.zero_lt_of_lt h.many).ne'
  refine ⟨hook, List.mem_filterMap.mpr ⟨index, ?_, hget⟩⟩
  rw [List.drop_eq_getElem_cons hlt, hindex, List.take_succ_cons]
  exact List.mem_cons_self

/-- What is known of the members. -/
theorem members (h : WavePass engines plan count st st')
    (hvalid : ∀ i ∈ plan.order, i < st.hooks.length) :
    (∀ hook ∈ waveHooks plan count st, hook.result.outcome = .prepared ∧
        hook.matchedEngine ≠ none) ∧
      ((waveHooks plan count st).map Hook.targetKey).Nodup ∧
      ∀ hook ∈ waveHooks plan count st, waveEngine engines (waveHooks plan count st) =
        hook.engine engines := by
  have hdrop : ∀ i ∈ plan.order.drop st.position, i < st.hooks.length :=
    fun i hi ↦ hvalid i (List.mem_of_mem_drop hi)
  have hmany := h.many
  rw [waveHooks, hooksAt_take hdrop, h.selected]
  rw [h.selected] at hmany
  obtain ⟨first, rest, htake, -, hgroup, hmembers, -⟩ := commitGroupCount_spec hmany
  have hkeys := commitGroupCount_keys hmany
  rw [htake] at hkeys ⊢
  have hfirst : first.matchedEngine ≠ none := by
    intro hnone
    rw [Hook.engine, hnone] at hgroup
    cases hgroup
  refine ⟨fun hook hhook ↦ ?_, hkeys, fun hook hhook ↦ ?_⟩
  · obtain ⟨hprepared, -, -, hengine, -⟩ := hmembers hook hhook
    exact ⟨hprepared, hengine ▸ hfirst⟩
  · obtain ⟨-, -, -, hengine, -⟩ := hmembers hook hhook
    show first.engine engines = hook.engine engines
    rw [Hook.engine, Hook.engine, hengine]

end WavePass

end HookKit
