import HookKit.Plan.LedgerSteps
import HookKit.Plan.Account

/-!
# Compensation

A reversible engine may restore the members of a wave that went wrong.  The flag that says so is
part of the operations all callbacks write to, and the core reads it in four places.

* `Compensated`, `HonestWave` — what has to be true of a hook that ends compensated.
* `Restores` — what the callbacks have to leave for that.
* `compensationHonest_iff` — the core is honest about a wave exactly where the callbacks leave it.
-/

set_option autoImplicit false

namespace HookKit

open Loop Trace

variable {ε : Type} (engines : EngineRef → Engine ε)

/-! ## The callback -/

/-- The hooks whose operations are flagged. -/
def flaggedIds (members : List Member) : List Id :=
  (members.filter fun member ↦ member.op.compensated).map fun member ↦ member.hook.hookId

theorem mem_flaggedIds {members : List Member} {id : Id} :
    id ∈ flaggedIds members ↔ ∃ m ∈ members, m.op.compensated = true ∧ m.hook.hookId = id := by
  simp [flaggedIds, and_assoc]

/-- Nobody has called the compensation callback yet. -/
def Event.isCommitCall (e : Event) : Prop := ∃ c, e = .commitCall c

theorem commitWave_quiet (engine : Engine ε) (runtime : RuntimeId) (members : List Member)
    (w : World ε) :
    w.Quiet Event.isCommitCall (commitWave engines engine runtime members w).2.2 := by
  rw [commitWave]
  have hquiet₁ := (revalidateWave_spec (Q := Event.isCommitCall) engine members w).2
  generalize revalidateWave engine members w = r at hquiet₁ ⊢
  obtain ⟨revalidated, members₁, w₁⟩ := r
  dsimp only at hquiet₁ ⊢
  split
  · exact hquiet₁
  · have hlog := (logCommitCalls_spec engines (Q := Event.isCommitCall) runtime members₁ w₁
      fun m _ ↦ ⟨_, rfl⟩).1
    split
    · exact hquiet₁
    · rename_i commit _
      have hquiet₂ := (callGroup_spec (Q := Event.isCommitCall) commit members₁
        (logCommitCalls engines runtime members₁ w₁)).2
      generalize callGroup commit members₁ (logCommitCalls engines runtime members₁ w₁) = c
        at hquiet₂ ⊢
      obtain ⟨accepted, members₂, w₂⟩ := c
      dsimp only at hquiet₂ ⊢
      split
      · exact hquiet₁.trans (hlog.trans hquiet₂)
      · exact hquiet₁.trans (hlog.trans hquiet₂)

/-- A compensation that is not called changes nothing; one that is leaves no flag unless it
returned true. -/
theorem compensateWave_restored (engine : Engine ε) (verdict : WaveVerdict) (verified : Bool)
    (members : List Member) (w : World ε) :
    let r := compensateWave engine verdict verified members w
    compensatesWave engine verdict verified members = false ∧ r = (members, w) ∨
      compensatesWave engine verdict verified members = true ∧ ∃ accepted w₁,
        w.Quiet Event.isCommitCall w₁ ∧
          r.2 = w₁.log (.compensateCall accepted (flaggedIds r.1)) ∧
          ∀ m ∈ r.1, m.op.compensated = true → accepted = true := by
  unfold compensateWave compensatesWave
  cases engine.compensateGroupCtx with
  | none => exact .inl ⟨rfl, rfl⟩
  | some compensate =>
    by_cases hneeded : (compensationNeeded verdict verified members &&
        engine.describe.supportsCompensation) = true
    · simp only [Option.isSome_some, hneeded, Bool.and_self, if_true]
      have hquiet := (callGroup_spec (Q := Event.isCommitCall) compensate members w).2
      generalize callGroup compensate members w = c at hquiet ⊢
      obtain ⟨accepted, members₁, w₁⟩ := c
      refine .inr ⟨trivial, accepted, w₁, hquiet, rfl, fun m hm hflag ↦ ?_⟩
      cases accepted with
      | true => rfl
      | false =>
        obtain ⟨m', -, rfl⟩ := List.mem_map.mp hm
        cases hflag
    · simp only [Option.isSome_some, hneeded, Bool.and_false, Bool.false_eq_true, if_false]
      exact .inl ⟨trivial, trivial⟩

/-- **What the callbacks of a wave write down.** -/
theorem answerWave_restored (engine : Engine ε) (runtime : RuntimeId) (members : List Member)
    (w : World ε) :
    let r := answerWave engines engine runtime members w
    r.restored = false ∧ w.Quiet Event.isCommitCall r.world ∨
      r.restored = true ∧ ∃ accepted w₁, w.Quiet Event.isCommitCall w₁ ∧
        r.world = w₁.log (.compensateCall accepted (flaggedIds r.members)) ∧
        ∀ m ∈ r.members, m.op.compensated = true → accepted = true := by
  have hquiet₁ := commitWave_quiet engines engine runtime members w
  unfold answerWave
  generalize commitWave engines engine runtime members w = c at hquiet₁ ⊢
  obtain ⟨verdict, members₁, w₁⟩ := c
  dsimp only at hquiet₁ ⊢
  have hquiet₂ := (verifyWave_spec (Q := Event.isCommitCall) engine verdict members₁ w₁).2.1
  generalize verifyWave engine verdict members₁ w₁ = v at hquiet₂ ⊢
  obtain ⟨verified, members₂, w₂⟩ := v
  dsimp only at hquiet₂ ⊢
  rcases compensateWave_restored engine verdict verified members₂ w₂ with
    ⟨hno, heq⟩ | ⟨hyes, accepted, w₃, hquiet₃, hworld, hflags⟩
  · rw [heq]
    exact .inl ⟨hno, hquiet₁.trans hquiet₂⟩
  · exact .inr ⟨hyes, accepted, w₃, (hquiet₁.trans hquiet₂).trans hquiet₃, hworld, hflags⟩

/-! ## The wave -/

section Wave

variable {engines} {plan : CommitPlan} {count : Nat} {st st' : CommitState ε}

/-- Nobody calls the compensation callback while members are settled. -/
theorem settle_quiet (plan : CommitPlan) (count : Nat) (st : CommitState ε) :
    (waveAnswers engines plan count st).world.Adds (fun e ↦ ∃ s, e = .commitSettled s)
      (waveSettled engines plan count st).2.2 := by
  have hrecord := (recordMembers_spec engines (Q := fun e ↦ ∃ s, e = .commitSettled s)
    (waveAnswers engines plan count st).members (waveAnswers engines plan count st).world).2
  have hstore := (appendMemberLedgers_spec (Q := fun e ↦ ∃ s, e = .commitSettled s)
    (recordMembers engines (waveAnswers engines plan count st).members
      (waveAnswers engines plan count st).world).1 st.ledger
    (recordMembers engines (waveAnswers engines plan count st).members
      (waveAnswers engines plan count st).world).2).2
  have hfinish := (finishMembers_spec engines plan.runtime
    (waveAnswers engines plan count st).verified (waveStored engines plan count st).1
    (waveStored engines plan count st).2.1 (waveStored engines plan count st).2.2).2.1
  refine hrecord.trans (hstore.toAdds.trans (hfinish.toAdds.mono ?_))
  rintro e ⟨m, -, hook, -, -, published, rfl⟩
  exact ⟨_, rfl⟩

/-- Before the engine is asked nothing happens but allocations. -/
theorem alloc_quiet (hooks : List Hook) (st : CommitState ε) :
    st.world.Quiet Event.isCommitCall
      (allocMembers hooks (st.world.setEnv (st.world.env.allocAll 4).2)).2 :=
  (World.quiet_setEnv st.world _).trans (allocMembers_quiet hooks _)

/-- **What a wave writes down about compensation.** -/
theorem since_compensateCall (plan : CommitPlan) (count : Nat) (st : CommitState ε)
    {accepted : Bool} {flagged : List Id}
    (h : Since st.world.history (waveSettled engines plan count st).2.2.history
      (.compensateCall accepted flagged)) :
    (waveAnswers engines plan count st).restored = true ∧
      flagged = flaggedIds (waveAnswers engines plan count st).members := by
  have halloc := alloc_quiet (waveHooks plan count st) st
  have hsettle := @settle_quiet _ engines plan count st
  rcases answerWave_restored engines (waveEngine engines (waveHooks plan count st)) plan.runtime
    ((waveHooks plan count st).map (openOperation plan
      (waveEngine engines (waveHooks plan count st)).revalidateGroupCtx.isNone))
    (allocMembers (waveHooks plan count st) (st.world.setEnv (st.world.env.allocAll 4).2)).2
    with ⟨hno, hanswer⟩ | ⟨hyes, accepted', w₁, hanswer, hworld, hflags⟩
  · rw [← waveAnswers] at hno hanswer
    rcases Since.cases (halloc.trans hanswer).history hsettle.history h with h | h
    · obtain ⟨c, hc⟩ := (halloc.trans hanswer).history.since h
      cases hc
    · obtain ⟨c, hc⟩ := hsettle.history.since h
      cases hc
  · rw [← waveAnswers] at hyes hworld hflags
    refine ⟨hyes, ?_⟩
    have hlogged : w₁.Adds (fun e ↦ e = .compensateCall accepted'
        (flaggedIds (waveAnswers engines plan count st).members))
        (waveAnswers engines plan count st).world := by
      rw [hworld]
      exact (World.Adds.refl w₁).log rfl
    have hfirst := (halloc.trans hanswer).history
    have hboth : Adds (fun _ ↦ True) st.world.history
        (waveAnswers engines plan count st).world.history :=
      (hfirst.mono fun _ _ ↦ trivial).trans (hlogged.history.mono fun _ _ ↦ trivial)
    rcases Since.cases hboth hsettle.history h with h | h
    · rcases Since.cases hfirst hlogged.history h with h | h
      · obtain ⟨c, hc⟩ := hfirst.since h
        cases hc
      · cases hlogged.history.since h
        rfl
    · obtain ⟨c, hc⟩ := hsettle.history.since h
      cases hc

/-- A compensation that was called is written down, and it returned true if anybody is flagged. -/
theorem compensateCall_since (plan : CommitPlan) (count : Nat) (st : CommitState ε)
    (h : (waveAnswers engines plan count st).restored = true) :
    ∃ accepted, Since st.world.history (waveSettled engines plan count st).2.2.history
        (.compensateCall accepted (flaggedIds (waveAnswers engines plan count st).members)) ∧
      ∀ m ∈ (waveAnswers engines plan count st).members, m.op.compensated = true →
        accepted = true := by
  have halloc := alloc_quiet (waveHooks plan count st) st
  have hsettle := @settle_quiet _ engines plan count st
  rcases answerWave_restored engines (waveEngine engines (waveHooks plan count st)) plan.runtime
    ((waveHooks plan count st).map (openOperation plan
      (waveEngine engines (waveHooks plan count st)).revalidateGroupCtx.isNone))
    (allocMembers (waveHooks plan count st) (st.world.setEnv (st.world.env.allocAll 4).2)).2
    with ⟨hno, -⟩ | ⟨-, accepted, w₁, hanswer, hworld, hflags⟩
  · rw [← waveAnswers, h] at hno
    cases hno
  · rw [← waveAnswers] at hworld hflags
    refine ⟨accepted, ?_, hflags⟩
    refine Since.later ?_ hsettle.history
    refine Since.earlier (halloc.trans hanswer).history ⟨[_], ?_, List.mem_cons_self⟩
    rw [hworld]
    rfl

/-- The key of a flagged member keeps its owner. -/
theorem waveSettled_lookup {key : Key}
    (h : ∀ m ∈ (waveAnswers engines plan count st).members, m.hook.targetKey = key →
      m.op.compensated = true) :
    (waveSettled engines plan count st).2.2.owners.lookup key = st.world.owners.lookup key := by
  have halloc := alloc_quiet (waveHooks plan count st) st
  have hanswer : (waveAnswers engines plan count st).world.owners = st.world.owners := by
    rcases answerWave_restored engines (waveEngine engines (waveHooks plan count st)) plan.runtime
      ((waveHooks plan count st).map (openOperation plan
        (waveEngine engines (waveHooks plan count st)).revalidateGroupCtx.isNone))
      (allocMembers (waveHooks plan count st) (st.world.setEnv (st.world.env.allocAll 4).2)).2
      with ⟨-, hquiet⟩ | ⟨-, accepted, w₁, hquiet, hworld, -⟩
    · exact (halloc.trans hquiet).owners
    · rw [← waveAnswers] at hworld
      rw [hworld]
      exact (halloc.trans hquiet).owners
  have hstore := (appendMemberLedgers_spec (Q := fun _ ↦ False)
    (recordMembers engines (waveAnswers engines plan count st).members
      (waveAnswers engines plan count st).world).1 st.ledger
    (recordMembers engines (waveAnswers engines plan count st).members
      (waveAnswers engines plan count st).world).2).2
  have hfinish := (finishMembers_spec engines plan.runtime
    (waveAnswers engines plan count st).verified (waveStored engines plan count st).1
    (waveStored engines plan count st).2.1 (waveStored engines plan count st).2.2).2.1
  calc (waveSettled engines plan count st).2.2.owners.lookup key
    _ = (recordMembers engines (waveAnswers engines plan count st).members
          (waveAnswers engines plan count st).world).2.owners.lookup key :=
        congrArg (·.lookup key) (hfinish.owners.trans hstore.owners)
    _ = (waveAnswers engines plan count st).world.owners.lookup key :=
        recordMembers_lookup engines h _
    _ = st.world.owners.lookup key := congrArg (·.lookup key) hanswer

end Wave

/-! ## Honesty -/

/-- What has to be true of a hook that a wave leaves compensated.  `artifacts` are the artifacts in
the ledgers of the call, and `state` is the state the call leaves the plan in. -/
structure Compensated (hook' : Hook) (before after : World ε) (artifacts : List Artifact)
    (state : PlanState) : Prop where
  called : ∃ flagged, Since before.history after.history (.compensateCall true flagged) ∧
    hook'.hookId ∈ flagged
  takenBack : ∀ a ∈ artifacts, a.requestId = hook'.hookId → a.TakenBack
  unverified : hook'.result.verified = false
  unowned : after.owners.lookup hook'.targetKey = before.owners.lookup hook'.targetKey
  uncommitted : state ≠ .committed

/-- The core is honest about the hooks of a wave. -/
def HonestWave (plan : CommitPlan) (count : Nat) (st st' : CommitState ε)
    (artifacts : List Artifact) (state : PlanState) : Prop :=
  ∀ hook' ∈ (waveSettled engines plan count st).1,
    (hook'.result.outcome = .compensated →
      Compensated hook' st.world st'.world artifacts state) ∧
    (hook'.result.outcome = .active → ∀ flagged,
      Since st.world.history st'.world.history (.compensateCall true flagged) →
        hook'.hookId ∉ flagged)

/-- What the callbacks have to leave in the operations.  It is said of the members whose artifacts
could all be stored and that are still flagged then. -/
structure Restores (engines : EngineRef → Engine ε) (plan : CommitPlan) (count : Nat)
    (st : CommitState ε) : Prop where
  /-- Nobody is flagged without a call of the compensation callback. -/
  called : (∃ m ∈ (waveStored engines plan count st).1, m.op.compensated = true) →
    (waveAnswers engines plan count st).restored = true
  /-- Nobody's mutation is trusted and verified. -/
  unverified : ∀ (i : Nat) (m : Member) (l : Ledger) (w : World ε),
    (waveStored engines plan count st).1[i]? = some m →
    (waveVisited engines plan count st)[i]? = some (l, w) → m.op.compensated = true →
    ¬m.Verifies engines (waveAnswers engines plan count st).verified w
  /-- A member that says it changed nothing recorded only what needs no mark, and nobody is verified
  together with it. -/
  marked : ∀ m ∈ (waveStored engines plan count st).1, m.op.compensated = true →
    m.op.mutation = .none → 0 < m.op.sink.ledger.count →
      (∀ a ∈ m.op.sink.ledger.items, a.TakenBack) ∧
      ∀ (k : Nat) (m' : Member) (l : Ledger) (w : World ε),
        (waveStored engines plan count st).1[k]? = some m' →
        (waveVisited engines plan count st)[k]? = some (l, w) →
        m'.artifactStart < m.artifactStart + m.op.sink.ledger.count →
        ¬m'.Verifies engines (waveAnswers engines plan count st).verified w

section Honest

variable {engines} {plan : CommitPlan} {count : Nat} {st st' : CommitState ε}
  {artifacts : List Artifact} {state : PlanState}

/-- What is needed to know of the call around the wave. -/
structure Around (engines : EngineRef → Engine ε) (plan : CommitPlan) (count : Nat)
    (st st' : CommitState ε) (artifacts : List Artifact) (state : PlanState) : Prop where
  pass : WavePass engines plan count st st'
  valid : ∀ i ∈ plan.order, i < st.hooks.length
  ids : ((waveHooks plan count st).map Hook.hookId).Nodup
  failed : 0 < st'.failed → state ≠ .committed
  own : ∀ hook ∈ waveHooks plan count st, ∀ a ∈ artifacts, a.requestId = hook.hookId →
    ∃ j, st.ledger.count ≤ j ∧ st'.ledger.items[j]? = some a
  kept : ∀ a ∈ st'.ledger.items, a ∈ artifacts

namespace Around

theorem world_eq (h : Around engines plan count st st' artifacts state) :
    st'.world = (waveSettled engines plan count st).2.2 ∧
      st'.ledger = (waveSettled engines plan count st).2.1 := by
  have heq := commitGroup_next engines h.pass.next
  subst heq
  exact ⟨rfl, rfl⟩

/-- A settled hook that is not active is counted. -/
theorem counted (h : Around engines plan count st st' artifacts state) {hook' : Hook}
    (hmem : hook' ∈ (waveSettled engines plan count st).1)
    (hne : hook'.result.outcome ≠ .active) : 0 < st'.failed := by
  have heq := commitGroup_next engines h.pass.next
  subst heq
  refine Nat.lt_of_lt_of_le ?_ (Nat.le_add_left _ _)
  exact List.countP_pos_iff.mpr ⟨hook', hmem, by simpa using hne⟩

theorem inj (h : Around engines plan count st st' artifacts state) {m m' : Member}
    (hm : m ∈ (waveAnswers engines plan count st).members)
    (hm' : m' ∈ (waveAnswers engines plan count st).members)
    (heq : m.hook.hookId = m'.hook.hookId) : m = m' :=
  members_inj (waveAnswers_hooks engines plan count st) h.ids hm hm' heq

theorem inj_stored (h : Around engines plan count st st' artifacts state) {m m' : Member}
    (hm : m ∈ (waveStored engines plan count st).1)
    (hm' : m' ∈ (waveStored engines plan count st).1)
    (heq : m.hook.hookId = m'.hook.hookId) : m = m' :=
  members_inj (waveStored_hooks engines plan count st) h.ids hm hm' heq

/-- The compensated hooks are the members that are flagged in the end. -/
theorem flagged {i : Nat} {hook hook' : Hook} {m m' : Member} {l : Ledger} {w : World ε}
    (hs : SettledMember engines plan count st i hook m m' l w hook') :
    (hook'.result.outcome = .compensated ↔ m'.op.compensated = true) ∧
      (m'.op.compensated = true ↔
        m.op.compensated = true ∧ m'.op.sink.recordFailed = false) := by
  obtain ⟨ledger', hrolled⟩ := hs.rollsUp.result
  obtain ⟨mid, hrecords, hstores⟩ := hs.recorded
  refine ⟨hrolled.compensated, ?_⟩
  rw [hstores.compensated, hrecords.compensated]

/-- The result of a member says verified exactly where the roll-up verified it. -/
theorem verified (h : Around engines plan count st st' artifacts state) {i : Nat}
    {hook hook' : Hook} {m m' : Member} {l : Ledger} {w : World ε}
    (hs : SettledMember engines plan count st i hook m m' l w hook') :
    hook'.result.verified = true ↔
      m'.Verifies engines (waveAnswers engines plan count st).verified w := by
  obtain ⟨ledger', hrolled⟩ := hs.rollsUp.result
  obtain ⟨mid, -, hstores⟩ := hs.recorded
  have hmatched : m'.hook.matchedEngine ≠ none := by
    rw [hs.storedHook]
    exact ((h.pass.members h.valid).1 hook (List.mem_of_getElem? hs.hookAt)).2
  have hstart : m'.artifactStart ≤ l.count := hs.ledger ▸ hstores.start.2
  rw [hrolled.verified]
  exact ⟨fun h ↦ ⟨h.1, h.2.1, h.2.2.1⟩, fun h ↦ ⟨h.1, hmatched, h.2.2, hstart⟩⟩

/-- What becomes of the artifacts of a member before the marking loop: the roll-ups that verify a
member in front of them mark them, and nobody else does. -/
theorem finished {i : Nat} {hook hook' : Hook} {m m' : Member} {l : Ledger} {w : World ε}
    (hs : SettledMember engines plan count st i hook m m' l w hook')
    (hok : m'.op.sink.recordFailed = false) {n : Nat} (hn : n < m'.op.sink.ledger.count)
    {a : Artifact}
    (ha : (waveFinished engines plan count st).items[m'.artifactStart + n]? = some a) :
    (∃ (k : Nat) (mk : Member) (l : Ledger) (w : World ε),
        (waveStored engines plan count st).1[k]? = some mk ∧
        (waveVisited engines plan count st)[k]? = some (l, w) ∧
        mk.artifactStart ≤ m'.artifactStart + n ∧
        mk.Verifies engines (waveAnswers engines plan count st).verified w) ∧ a.state = .verified ∨
      (∀ (k : Nat) (mk : Member) (l : Ledger) (w : World ε),
        (waveStored engines plan count st).1[k]? = some mk →
        (waveVisited engines plan count st)[k]? = some (l, w) →
        mk.artifactStart ≤ m'.artifactStart + n →
        ¬mk.Verifies engines (waveAnswers engines plan count st).verified w) ∧
        m'.op.sink.ledger.items[n]? = some a := by
  have hown := hs.own_getElem? hok hn
  have hget := List.getElem?_eq_getElem hn
  rw [hget] at hown ⊢
  obtain ⟨b, hb, hcases⟩ := finishMembers_verified engines plan.runtime
    (waveAnswers engines plan count st).verified (waveStored engines plan count st).1
    (waveStored engines plan count st).2.1 (waveStored engines plan count st).2.2 hown
  obtain rfl : b = a := Option.some.inj (hb.symm.trans ha)
  exact hcases.imp_right (.imp_right fun h ↦ congrArg some h.symm)

/-- What the ledger of the wave holds of a member's artifacts. -/
theorem artifact (h : Around engines plan count st st' artifacts state) {i : Nat}
    {hook hook' : Hook} {m m' : Member} {l : Ledger} {w : World ε}
    (hs : SettledMember engines plan count st i hook m m' l w hook')
    (hcompensated : m'.op.compensated = true) {j : Nat} {a : Artifact}
    (hin : m'.artifactStart ≤ j ∧ j < m'.artifactStart + m'.op.sink.ledger.count)
    (ha : st'.ledger.items[j]? = some a) :
    (m'.op.mutation ≠ .none ∧ a.TakenBack) ∨ (m'.op.mutation = .none ∧
      (waveFinished engines plan count st).items[j]? = some a) := by
  have hok : m'.op.sink.recordFailed = false := ((flagged hs).2.mp hcompensated).2
  rw [h.world_eq.2] at ha
  obtain ⟨b, hb, -, hcases⟩ := (waveSettled_marks engines plan count st).1 j a ha
  by_cases hnone : m'.op.mutation = .none
  · refine .inr ⟨hnone, ?_⟩
    rcases hcases with ⟨⟨mk, hmk, hmarks, hin'⟩, -⟩ | ⟨-, rfl⟩
    · -- an artifact belongs to one member only
      obtain ⟨c, hc, -⟩ := Pointwise.getElem?_right (waveFinished_marks engines plan count st) hb
      obtain ⟨_, _, _, _, _, _, hk⟩ := settledMember_of_mem engines hmk
      have hown := hs.requestId c (hs.own_item hok hin hc)
      have hownk := hk.requestId c (hk.own_item hmarks.2.2 hin' hc)
      have heq : mk = m' := by
        refine h.inj_stored hmk (List.mem_of_getElem? hs.storedAt) ?_
        rw [hk.storedHook, hs.storedHook, ← hown, ← hownk]
      exact absurd (heq ▸ hnone) hmarks.2.1
    · exact hb
  · refine .inl ⟨hnone, ?_⟩
    rcases hcases with ⟨-, htaken⟩ | ⟨hno, -⟩
    · exact htaken
    · exact absurd hin (hno m' (List.mem_of_getElem? hs.storedAt) ⟨hcompensated, hnone, hok⟩)

/-- What honesty about the hooks asks of the callbacks. -/
theorem restores (h : Around engines plan count st st' artifacts state)
    (hhonest : HonestWave engines plan count st st' artifacts state) :
    Restores engines plan count st := by
  obtain ⟨hworld, hledger⟩ := h.world_eq
  have hcompensated : ∀ {i : Nat} {hook hook' : Hook} {m m' : Member} {l : Ledger} {w : World ε},
      SettledMember engines plan count st i hook m m' l w hook' → m'.op.compensated = true →
        Compensated hook' st.world st'.world artifacts state := fun hs hflag ↦
    (hhonest _ (List.mem_of_getElem? hs.settledAt)).1 ((flagged hs).1.mpr hflag)
  refine ⟨?_, fun i m' l w hm' hvisited hflag hverifies ↦ ?_, ?_⟩
  · rintro ⟨m', hm', hflag⟩
    obtain ⟨_, _, _, _, _, _, hs⟩ := settledMember_of_mem engines hm'
    obtain ⟨flagged, hsince, -⟩ := (hcompensated hs hflag).called
    rw [hworld] at hsince
    exact (since_compensateCall plan count st hsince).1
  · obtain ⟨hook, m, l', w', hook', hs⟩ := settledMember_of_stored engines hm'
    have heq := hvisited.symm.trans hs.visitedAt
    rw [Option.some.injEq, Prod.mk.injEq] at heq
    obtain ⟨rfl, rfl⟩ := heq
    have hunverified := (hcompensated hs hflag).unverified
    rw [(h.verified hs).mpr hverifies] at hunverified
    cases hunverified
  · intro m' hm' hflag hnone hcount
    obtain ⟨_, _, _, _, _, _, hs⟩ := settledMember_of_mem engines hm'
    have hrecord : m'.op.sink.recordFailed = false := ((flagged hs).2.mp hflag).2
    -- every artifact of the member ends in the ledger as it was recorded, and is taken back there
    have hleft : ∀ n, n < m'.op.sink.ledger.count → ∃ a, m'.op.sink.ledger.items[n]? = some a ∧
        a.TakenBack ∧ ∀ (k : Nat) (mk : Member) (l : Ledger) (w : World ε),
          (waveStored engines plan count st).1[k]? = some mk →
          (waveVisited engines plan count st)[k]? = some (l, w) →
          mk.artifactStart ≤ m'.artifactStart + n →
          ¬mk.Verifies engines (waveAnswers engines plan count st).verified w := by
      intro n hn
      have hlt : m'.artifactStart + n < st'.ledger.items.length := by
        have hrange := hs.range hrecord
        have hmarks := (waveFinished_marks engines plan count st).length_eq
        have hsettled := (waveSettled_marks engines plan count st).2.1
        rw [hledger]
        rw [Ledger.count, Ledger.count] at hsettled
        rw [hsettled, ← hmarks]
        exact lt_of_lt_of_le (Nat.add_lt_add_left hn _) hrange
      have hget := List.getElem?_eq_getElem hlt
      have hin : m'.artifactStart ≤ m'.artifactStart + n ∧
          m'.artifactStart + n < m'.artifactStart + m'.op.sink.ledger.count := by omega
      rcases h.artifact hs hflag hin hget with ⟨hne, -⟩ | ⟨-, hfinished⟩
      · exact absurd hnone hne
      have htaken : (st'.ledger.items[m'.artifactStart + n]).TakenBack := by
        obtain ⟨c, hc, hca, -⟩ := Pointwise.getElem?_right
          (waveFinished_marks engines plan count st) hfinished
        refine (hcompensated hs hflag).takenBack _ (h.kept _ (List.mem_of_getElem? hget)) ?_
        rw [hca.requestId, hs.requestId c (hs.own_item hrecord hin hc),
          hs.rollsUp.same.hookId, hs.storedHook]
      rcases finished hs hrecord hn hfinished with ⟨-, hstate⟩ | ⟨hno, hitem⟩
      · rw [htaken.1] at hstate
        cases hstate
      · exact ⟨_, hitem, htaken, hno⟩
    refine ⟨fun a ha ↦ ?_, fun k mk l w hk hvisited hstart ↦ ?_⟩
    · obtain ⟨n, hn⟩ := List.getElem?_of_mem ha
      obtain ⟨b, hb, htaken, -⟩ := hleft n (List.getElem?_eq_some_iff.mp hn).1
      obtain rfl : a = b := Option.some.inj (hn.symm.trans hb)
      exact htaken
    · obtain ⟨-, -, -, hno⟩ := hleft (m'.op.sink.ledger.count - 1) (by omega)
      exact hno k mk l w hk hvisited (by omega)

/-- What the callbacks have to leave is enough. -/
theorem honest (h : Around engines plan count st st' artifacts state)
    (hr : Restores engines plan count st) :
    HonestWave engines plan count st st' artifacts state := by
  obtain ⟨hworld, hledger⟩ := h.world_eq
  intro hook' hmem
  obtain ⟨i, hi⟩ := List.getElem?_of_mem hmem
  obtain ⟨hook, m, m', l, w, hs⟩ := settledMember engines hi
  have hmemAnswer := List.mem_of_getElem? hs.answeredAt
  have hmemStored := List.mem_of_getElem? hs.storedAt
  have hid : hook'.hookId = m.hook.hookId := by
    rw [hs.rollsUp.same.hookId, hs.storedHook, hs.same]
  refine ⟨fun hcompensated ↦ ?_, fun hactive flagged hsince hmem' ↦ ?_⟩
  · have hflag := (flagged hs).1.mp hcompensated
    obtain ⟨hflag₀, hok⟩ := (flagged hs).2.mp hflag
    refine ⟨?_, fun a ha hrequest ↦ ?_, ?_, ?_, ?_⟩
    · obtain ⟨accepted, hsince, haccepted⟩ := @compensateCall_since _ engines plan count st
        (hr.called ⟨m', hmemStored, hflag⟩)
      rw [haccepted m hmemAnswer hflag₀] at hsince
      refine ⟨_, hworld ▸ hsince, mem_flaggedIds.mpr ⟨m, hmemAnswer, hflag₀, hid.symm⟩⟩
    · rw [hid, hs.same] at hrequest
      obtain ⟨j, hj, hget⟩ := h.own hook (List.mem_of_getElem? hs.hookAt) a ha hrequest
      obtain ⟨m'', hm'', hin, hrequest'⟩ :=
        (waveSettled_ledger engines plan count st).2 j a hj (hledger ▸ hget)
      obtain rfl := h.inj_stored hm'' hmemStored (by
        rw [← hrequest', hrequest, hs.storedHook])
      rcases h.artifact hs hflag hin hget with ⟨-, htaken⟩ | ⟨hnone, hfinished⟩
      · exact htaken
      · obtain ⟨n, rfl⟩ := Nat.exists_eq_add_of_le hin.1
        have hn : n < m''.op.sink.ledger.count := by omega
        obtain ⟨htaken, hno⟩ := hr.marked _ hmemStored hflag hnone (Nat.zero_lt_of_lt hn)
        rcases finished hs hok hn hfinished with ⟨⟨k, mk, l₁, w₁, hk, hvisited, hle, hyes⟩, -⟩ |
          ⟨-, hitem⟩
        · exact absurd hyes (hno k mk l₁ w₁ hk hvisited (by omega))
        · exact htaken a (List.mem_of_getElem? hitem)
    · by_contra hverified
      rw [Bool.not_eq_false] at hverified
      exact hr.unverified i m' l w hs.storedAt hs.visitedAt hflag ((h.verified hs).mp hverified)
    · rw [hworld]
      refine waveSettled_lookup fun m₂ hm₂ hkey ↦ ?_
      -- nobody else in the wave has this key
      have hkeys := (h.pass.members h.valid).2.1
      rw [← waveAnswers_hooks engines, List.map_map] at hkeys
      have heq : m₂ = m := by
        refine List.inj_on_of_nodup_map hkeys hm₂ hmemAnswer ?_
        show m₂.hook.targetKey = m.hook.targetKey
        rw [hkey, hs.rollsUp.same.targetKey, hs.storedHook, hs.same]
      rw [heq]
      exact hflag₀
    · refine h.failed (h.counted hmem ?_)
      rw [hcompensated]
      exact nofun
  · rw [hworld] at hsince
    obtain ⟨-, rfl⟩ := since_compensateCall plan count st hsince
    obtain ⟨m₂, hm₂, hflag, hid₂⟩ := mem_flaggedIds.mp hmem'
    obtain rfl := h.inj hm₂ hmemAnswer (hid₂.trans hid)
    obtain ⟨ledger', hrolled⟩ := hs.rollsUp.result
    have hflag' := (flagged hs).2.mpr ⟨hflag, (hrolled.active hactive).2.1.recorded⟩
    rw [(flagged hs).1.mpr hflag'] at hactive
    cases hactive

/-- **The core is honest about compensation exactly where the callbacks restore what they flag.** -/
theorem honest_iff (h : Around engines plan count st st' artifacts state) :
    HonestWave engines plan count st st' artifacts state ↔ Restores engines plan count st :=
  ⟨h.restores, h.honest⟩

end Around

end Honest

/-! ## The call -/

section Call

variable {engines} {s : System ε} {plan : Plan} {order : List Nat} {w₁ : World ε} {count : Nat}
  {st st' : CommitState ε}

/-- What was added to a ledger that may not have been there. -/
def Ledger.appended (before after : Option Ledger) : List Artifact :=
  ((after.map Ledger.items).getD []).drop ((before.map Ledger.count).getD 0)

/-- The artifacts of a call of `hk_plan_commit`: those of the ledger its report keeps, and those it
adds to the runtime's and, behind its loop, to the process's ledger. -/
def callArtifacts (engines : EngineRef → Engine ε) (s : System ε) (plan : Plan) (order : List Nat)
    (w₁ : World ε) : List Artifact :=
  let runtime := s.runtimes plan.runtime
  let st := (commitLoop engines (plan.toCommit runtime order) plan.hooks w₁).state
  let (_, _, runtime', w') := commitPlan engines runtime plan s.world
  st.ledger.items ++ (Ledger.appended runtime.artifacts runtime'.artifacts ++
    Ledger.appended st.world.processLedger w'.processLedger)

theorem createReport_processLedger (count : Nat) (w : World ε) :
    (createReport count w).2.processLedger = w.processLedger := by
  rw [createReport, World.alloc, World.call]
  rcases w.env.alloc with ⟨_ | _, env⟩
  · rfl
  · dsimp only [World.freshId]
    rw [World.alloc, World.call]
    dsimp only [World.setEnv]
    rcases env.alloc with ⟨_ | _, env'⟩
    · rfl
    · dsimp only
      split <;> rfl

theorem Ledger.mem_appended_self (l : Option Ledger) (a : Artifact) : a ∉ Ledger.appended l l := by
  cases l <;> simp [Ledger.appended, Ledger.count]

/-- An append adds the artifacts of its source, or nothing. -/
theorem Ledger.mem_appended {l source : Ledger} {env : Env ε} {a : Artifact}
    (h : a ∈ Ledger.appended (some l) (some (l.appendLedger source env).2.1)) :
    a ∈ source.items := by
  rcases l.appendLedger_spec source env with ⟨-, heq⟩ | ⟨-, heq⟩
  · simpa [Ledger.appended, heq, Ledger.count] using h
  · simp [Ledger.appended, heq, Ledger.count] at h

/-- What a commit publishes is what its loop recorded. -/
theorem publishArtifacts_mem (runtime : Runtime) (source : Ledger) (w : World ε) {a : Artifact}
    (h : a ∈ Ledger.appended runtime.artifacts (publishArtifacts runtime source w).1.artifacts ++
      Ledger.appended w.processLedger (publishArtifacts runtime source w).2.processLedger) :
    a ∈ source.items := by
  rw [publishArtifacts] at h
  rcases List.mem_append.mp h with h | h
  · rw [Runtime.appendArtifacts] at h
    cases hledger : runtime.artifacts with
    | none =>
      rw [hledger] at h
      exact absurd (hledger ▸ h) (Ledger.mem_appended_self _ a)
    | some ledger =>
      rw [hledger] at h
      exact Ledger.mem_appended h
  · dsimp only at h
    generalize (runtime.appendArtifacts source w.env).2 = env at h
    rw [World.appendProcessLedger] at h
    cases hledger : w.processLedger with
    | some ledger =>
      rw [World.setEnv, hledger] at h
      exact Ledger.mem_appended h
    | none =>
      rw [World.setEnv, hledger] at h
      dsimp only at h
      generalize env.alloc = allocated at h
      obtain ⟨ok, env'⟩ := allocated
      cases ok with
      | false => exact absurd (hledger ▸ h) (Ledger.mem_appended_self _ a)
      | true => exact @Ledger.mem_appended ε .empty source env' a h

/-- What a call leaves in the ledgers was recorded by its loop, and it leaves the plan's state alone
or as the loop counted. -/
theorem commitPlan_published
    (hstate : plan.state = .prepared ∨ plan.state = .partly)
    (halloc : allocCommit plan s.world = (some order, w₁)) :
    let runtime := s.runtimes plan.runtime
    let st := (commitLoop engines (plan.toCommit runtime order) plan.hooks w₁).state
    let plan' := (commitPlan engines runtime plan s.world).2.1
    (∀ a ∈ callArtifacts engines s plan order w₁, a ∈ st.ledger.items) ∧
      (plan'.state = plan.state ∨ plan'.state = st.planState) := by
  have haccepted : ¬(plan.state ≠ .prepared ∧ plan.state ≠ .partly) := by
    rcases hstate with h | h <;> simp [h]
  have hplan : (⟨plan.planId, (s.runtimes plan.runtime).ownerId, plan.runtime, plan.domains,
      order⟩ : CommitPlan) = plan.toCommit (s.runtimes plan.runtime) order := rfl
  dsimp only
  rw [callArtifacts, commitPlan, if_neg haccepted, halloc]
  dsimp only
  rw [hplan]
  -- a call that runs out of memory publishes nothing
  have hnothing : ∀ {st : CommitState ε} {ledger : Option Ledger} {a : Artifact},
      ledger = st.world.processLedger → a ∈ st.ledger.items ++
        (Ledger.appended (s.runtimes plan.runtime).artifacts (s.runtimes plan.runtime).artifacts ++
          Ledger.appended st.world.processLedger ledger) → a ∈ st.ledger.items := by
    rintro st _ a rfl ha
    simpa [Ledger.mem_appended_self] using ha
  cases commitLoop engines (plan.toCommit (s.runtimes plan.runtime) order) plan.hooks w₁ with
  | stop st => exact ⟨fun a ha ↦ hnothing rfl ha, .inl rfl⟩
  | next st =>
    dsimp only [Loop.Flow.state]
    have hreport := createReport_processLedger plan.hooks.length st.world
    generalize createReport plan.hooks.length st.world = report at hreport ⊢
    obtain ⟨ok, w₂⟩ := report
    cases ok with
    | false => exact ⟨fun a ha ↦ hnothing hreport ha, .inl rfl⟩
    | true =>
      refine ⟨fun a ha ↦ ?_, .inr rfl⟩
      rcases List.mem_append.mp ha with ha | ha
      · exact ha
      · refine publishArtifacts_mem (s.runtimes plan.runtime) st.ledger w₂ ?_
        rw [hreport]
        exact ha

/-- A wave of a call of `hk_plan_commit`, which starts its loop in `w₁`. -/
structure GroupCommit (engines : EngineRef → Engine ε) (s : System ε) (plan : Plan)
    (order : List Nat) (w₁ : World ε) (count : Nat) (st st' : CommitState ε) : Prop where
  slot : ∃ slot, s.plans slot = some plan
  accepted : plan.state = .prepared ∨ plan.state = .partly
  allocated : allocCommit plan s.world = (some order, w₁)
  visited : st ∈ commitVisited engines (plan.toCommit (s.runtimes plan.runtime) order) plan.hooks w₁
  pass : WavePass engines (plan.toCommit (s.runtimes plan.runtime) order) count st st'

/-- The hooks of a wave have different identifiers. -/
theorem hooksAt_ids {hooks : List Hook} (hids : (hooks.map Hook.hookId).Nodup) {indices : List Nat}
    (hnodup : indices.Nodup) : ((hooksAt hooks indices).map Hook.hookId).Nodup := by
  rw [hooksAt, List.map_filterMap]
  refine hnodup.filterMap fun i j id hi hj ↦ ?_
  rw [Option.mem_def, ← List.getElem?_map] at hi hj
  exact (List.getElem?_inj (List.getElem?_eq_some_iff.mp hi).1 hids).mp (hi.trans hj.symm)

/-- What is known around a wave of a call. -/
theorem GroupCommit.around (h : GroupCommit engines s plan order w₁ count st st') (hs : s.Sound) :
    Around engines (plan.toCommit (s.runtimes plan.runtime) order) count st st'
      (callArtifacts engines s plan order w₁)
      (commitPlan engines (s.runtimes plan.runtime) plan s.world).2.1.state := by
  obtain ⟨slot, hslot⟩ := h.slot
  have hids := hs.nodup_plan hslot
  obtain ⟨hnodup, hprepared⟩ := (allocCommit_spec (Q := fun _ ↦ False) plan s.world).2 order
    (congrArg Prod.fst h.allocated)
  have hvalid : ∀ i ∈ order, i < plan.hooks.length := fun i hi ↦ (hprepared i hi).lt
  obtain ⟨-, hkept, -⟩ := visited_invariant (CommitState.Keeps plan.hooks) _ h.visited
    (fun st' _ hst' ↦ @CommitState.Keeps.pass _ engines
      (plan.toCommit (s.runtimes plan.runtime) order) _ _ hst' hvalid hnodup)
        ⟨Pointwise.refl .refl plan.hooks, fun a ha ↦ absurd ha List.not_mem_nil⟩
  have hvalid' : ∀ i ∈ order, i < st.hooks.length :=
    fun i hi ↦ (hvalid i hi).trans_eq hkept.commits.length_eq
  have hids' : (st.hooks.map Hook.hookId).Nodup := by
    rw [Pointwise.map_eq hkept.commits Hook.hookId fun _ _ h ↦ h.hookId]
    exact hids
  obtain ⟨hmem, hstate⟩ := @commitPlan_published _ engines s plan order w₁ h.accepted h.allocated
  have hiter := h.pass.iter
  -- what the wave leaves is still there when the loop is over
  have hleft : ∀ hook ∈ waveHooks (plan.toCommit (s.runtimes plan.runtime) order) count st,
      st.Left st' (commitLoop engines (plan.toCommit (s.runtimes plan.runtime) order) plan.hooks
        w₁).state hook := by
    intro hook hhook
    obtain ⟨i, hi⟩ := List.getElem?_of_mem hhook
    have hlt : i < (waveSettled engines (plan.toCommit (s.runtimes plan.runtime) order) count
        st).1.length := by
      rw [waveSettled_length]
      exact (List.getElem?_eq_some_iff.mp hi).1
    obtain ⟨hook₁, m, m', l, w, hsettled⟩ := settledMember engines (List.getElem?_eq_getElem hlt)
    obtain rfl : hook = hook₁ := Option.some.inj (hi.symm.trans hsettled.hookAt)
    have hlater := @commitLoop_left _ engines
      (plan.toCommit (s.runtimes plan.runtime) order) _ _ hvalid hnodup hids _ h.visited _
      (hooksAt_mem hhook) ((h.pass.members hvalid').1 hook hhook).1
    rw [hiter] at hlater
    refine hlater ⟨_, ?_, hsettled.rollsUp.same.hookId.trans (congrArg _ hsettled.storedHook),
      Outcome.ne_prepared_of_isFinal (Outcome.isFinal_of_isVerdict hsettled.rollsUp.verdict)⟩
    have heq := commitGroup_next engines h.pass.next
    subst heq
    exact waveSettled_mem engines hvalid' hnodup (List.mem_of_getElem? hsettled.settledAt)
  obtain ⟨first, hfirst⟩ := h.pass.nonempty
  refine ⟨h.pass, hvalid', hooksAt_ids hids' ((hnodup.sublist (List.drop_sublist _ _)).sublist
    (List.take_sublist _ _)), fun hfailed ↦ ?_, fun hook hhook a ha ↦ ?_, fun a ha ↦ ?_⟩
  · rcases hstate with heq | heq
    · rw [heq]
      rcases h.accepted with h | h <;> rw [h] <;> simp
    · have hcount := hfailed.trans_le (hleft first hfirst).failed
      rw [heq, CommitState.planState, if_neg hcount.ne']
      split <;> simp
  · exact (hleft hook hhook).own a (hmem a ha)
  · exact List.mem_append_left _ ((hleft first hfirst).grows.subset ha)

/-- **Compensation is reported honestly exactly where the callbacks restore what they flag.**  For
every wave of every call of `hk_plan_commit` in every run. -/
theorem compensationHonest_iff (engines : EngineRef → Engine ε) (stripCode : Ptr → Ptr)
    {s : System ε} (hstart : s.Initial) (ops : List (Op ε)) {plan : Plan} {order : List Nat}
    {w₁ : World ε} {count : Nat} {st st' : CommitState ε}
    (h : GroupCommit engines (s.run engines stripCode ops) plan order w₁ count st st') :
    let s' := s.run engines stripCode ops
    HonestWave engines (plan.toCommit (s'.runtimes plan.runtime) order) count st st'
        (callArtifacts engines s' plan order w₁)
        (commitPlan engines (s'.runtimes plan.runtime) plan s'.world).2.1.state ↔
      Restores engines (plan.toCommit (s'.runtimes plan.runtime) order) count st :=
  (h.around (System.run_sound engines stripCode hstart ops)).honest_iff

end Call

/-! ## A process that is compensated -/

/-- The plan in the first slot. -/
def System.firstPlan (s : System ε) : Plan := (s.plans 0).getD ⟨0, 0, .draft, [], 0, [], 0⟩

/-- The state in which the first plan's loop starts. -/
def System.firstState (s : System ε) : CommitState ε :=
  .start s.firstPlan.hooks (allocCommit s.firstPlan s.world).2

/-- The first plan as its loop sees it. -/
def System.firstCommit (s : System ε) (order : List Nat) : CommitPlan :=
  s.firstPlan.toCommit (s.runtimes s.firstPlan.runtime) order

theorem start_mem_visited (engines : EngineRef → Engine ε) {plan : CommitPlan} {hooks : List Hook}
    {w : World ε} (h : 0 < plan.order.length) :
    CommitState.start hooks w ∈ commitVisited engines plan hooks w := by
  obtain ⟨n, hn⟩ := Nat.exists_eq_succ_of_ne_zero h.ne'
  rw [commitVisited, hn, Loop.visited, if_pos (by simp [CommitState.start])]
  exact List.mem_cons_self

/-- A wave in front of the first plan's commit order. -/
theorem GroupCommit.first {engines : EngineRef → Engine ε} {s : System ε} {order : List Nat}
    {count : Nat} (hslot : (s.plans 0).isSome = true) (haccepted : s.firstPlan.state = .prepared)
    (horder : (allocCommit s.firstPlan s.world).1 = some order)
    (hcount : count = commitGroupCount engines s.firstState.world.owners
      (s.firstState.world.env.generation s.firstPlan.runtime) (hooksAt s.firstPlan.hooks order))
    (hmany : 1 < count) (hvisits : ((order[0]?.bind fun i ↦ s.firstPlan.hooks[i]?).any fun hook ↦
      hook.result.outcome = .prepared) = true)
    (hnext : (commitGroup engines (s.firstCommit order) count s.firstState).isNext = true) :
    GroupCommit engines s s.firstPlan order s.firstState.world count s.firstState
      (commitGroup engines (s.firstCommit order) count s.firstState).state := by
  obtain ⟨hook, hhook, hprepared⟩ := (Option.any_eq_true _ _).mp hvisits
  obtain ⟨index, hindex, hget⟩ := Option.bind_eq_some_iff.mp hhook
  refine ⟨⟨0, ?_⟩, .inl haccepted, Prod.ext horder rfl, start_mem_visited engines ?_,
    ⟨⟨index, hook, hindex, hget, of_decide_eq_true hprepared⟩, hcount, hmany, ?_⟩⟩
  · obtain ⟨plan, hplan⟩ := Option.isSome_iff_exists.mp hslot
    rw [System.firstPlan, hplan, Option.getD_some]
  · exact List.length_pos_of_mem (List.mem_of_getElem? hindex)
  · rw [← System.firstCommit]
    generalize commitGroup engines (s.firstCommit order) count s.firstState = flow at hnext ⊢
    cases flow with
    | next st => rfl
    | stop st => cases hnext

/-- The core is honest about the wave in front of the first plan. -/
def System.HonestFirst (engines : EngineRef → Engine ε) (s : System ε) (order : List Nat)
    (count : Nat) : Prop :=
  HonestWave engines (s.firstCommit order) count s.firstState
    (commitGroup engines (s.firstCommit order) count s.firstState).state
    (callArtifacts engines s s.firstPlan order s.firstState.world)
    (commitPlan engines (s.runtimes s.firstPlan.runtime) s.firstPlan s.world).2.1.state

/-- What an operation holds, written back as it is. -/
def Operation.same (op : Operation) : OperationWrites :=
  ⟨op.mutation, op.verifyResult, op.verifyDiag, op.revalidated, op.compensated, ⟨[], none, none⟩⟩

/-- A grouped callback that answers every operation by itself. -/
def Engine.eachOperation (f : Operation → OperationWrites) (ops : List Operation) (env : Env ε) :
    GroupAnswer × Env ε :=
  (⟨true, fun n ↦ ((ops.map f)[n]?).getD
    ⟨.unknown, .failed, .zero, false, false, ⟨[], none, none⟩⟩⟩,
    env)

/-- An engine that commits whatever it is asked to, and is asked to `compensate` a whole wave when
one of its members is not verified. -/
def Engine.transactional (verify : HookSpec → VerifyResult)
    (compensate : Operation → OperationWrites) : Engine ε :=
  { Engine.scripted (fun _ _ ↦ .ok) fun _ _ ↦ .complete with
    describe := { (Engine.scripted (ε := ε) (fun _ _ ↦ .ok) fun _ _ ↦ .complete).describe with
      nativeGrouping := true, supportsCompensation := true }
    commitGroupCtx := some (eachOperation fun op ↦ { op.same with mutation := .complete })
    verifyGroupCtx := some (eachOperation fun op ↦ { op.same with verifyResult := verify op.spec })
    compensateGroupCtx := some (eachOperation compensate) }

/-- An engine that takes the whole wave back. -/
def Engine.restoring (verify : HookSpec → VerifyResult) : Engine ε :=
  .transactional verify fun op ↦ { op.same with compensated := true }

/-- A prepared plan with two hooks. -/
def preparedTwo (engine : Engine Unit) : System Unit :=
  (System.fresh () fun _ ↦ 0).run (fun _ ↦ engine) id
    [.createPlan 0 0, .addHook 0 (.atAddress "first" 0x1000 1),
      .addHook 0 (.atAddress "second" 0x2000 2), .analyze 0, .prepare 0]

/-- Nobody is verified, and everybody is taken back. -/
theorem compensationHonest_iff_unverified :
    (preparedTwo (.restoring fun _ ↦ .failed)).HonestFirst (fun _ ↦ .restoring fun _ ↦ .failed)
        [0, 1] 2 ↔
      Restores (fun _ ↦ .restoring fun _ ↦ .failed)
        ((preparedTwo (.restoring fun _ ↦ .failed)).firstCommit [0, 1]) 2
        (preparedTwo (.restoring fun _ ↦ .failed)).firstState :=
  compensationHonest_iff _ id (System.fresh_initial () fun _ ↦ 0) _
    (.first (by decide) (by decide) (by decide) (by decide) (by decide) (by decide) (by decide))

/-- An engine that verifies the first of the two hooks only. -/
def verifiesFirst : Engine Unit :=
  .restoring fun spec ↦ if spec.replacement = 1 then .ok else .failed

/-- The first hook is verified and the second is not, so the engine takes both back; the first one
is reported compensated and verified. -/
theorem compensated_verified :
    let s := preparedTwo verifiesFirst
    GroupCommit (fun _ ↦ verifiesFirst) s s.firstPlan [0, 1] s.firstState.world 2 s.firstState
        (commitGroup (fun _ ↦ verifiesFirst) (s.firstCommit [0, 1]) 2 s.firstState).state ∧
      ¬s.HonestFirst (fun _ ↦ verifiesFirst) [0, 1] 2 := by
  refine ⟨.first (by decide) (by decide) (by decide) (by decide) (by decide) (by decide)
    (by decide), fun h ↦ ?_⟩
  have hboth : ∃ hook' ∈ (waveSettled (fun _ ↦ verifiesFirst)
      ((preparedTwo verifiesFirst).firstCommit [0, 1]) 2 (preparedTwo verifiesFirst).firstState).1,
      hook'.result.outcome = .compensated ∧ hook'.result.verified = true := by decide
  obtain ⟨hook', hmem, hcompensated, hverified⟩ := hboth
  have hunverified := ((h hook' hmem).1 hcompensated).unverified
  rw [hverified] at hunverified
  cases hunverified

end HookKit
