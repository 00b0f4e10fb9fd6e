import HookKit.Plan.Compensation
import HookKit.Plan.Concurrent

/-!
# Overwriting an owner

The owner of a key is replaced by whoever is committed on it next, and that is safe as long as the
engine knew of it.  A one-hook commit looks the owner up in the section in which it calls the engine.
A group commit does not: its members were looked up one by one in sections before it, and whatever
other threads have done to their keys in between goes unseen.

* `World.Witnesses` — every dispatch of a step knows the owner of its key, and no owner is replaced
  without such a dispatch.
* `Concurrent.Unraced` — no group commit begins when one of its keys has got an owner.
* `Concurrent.witnesses_run` — what holds in every schedule of such turns.
* `Concurrent.unraced_run` — it is enough that nobody is committed on a key that another thread has
  selected.
* `Concurrent.overwritten_unseen` — a schedule of two threads in which an owner is lost.
-/

set_option autoImplicit false

namespace HookKit

open Loop Trace

variable {ε : Type} (engines : EngineRef → Engine ε)

/-! ## Knowing the owner -/

/-- The engine is the one that owns the key, and is told to require the head of its record. -/
def CommitCall.Witnessed (c : CommitCall) : Prop :=
  ∀ o, c.owner = some o → c.engineId = o.engineId ∧ c.requiredPredecessor = some o.headReplacement

/-- **Nobody is overwritten unseen.** -/
structure World.Witnesses (w w' : World ε) : Prop where
  called : ∀ c, Since w.history w'.history (.commitCall c) → c.Witnessed
  overwritten : ∀ key o, w.owners.lookup key = some o → w'.owners.lookup key = some o ∨
    ∃ c, Since w.history w'.history (.commitCall c) ∧ c.key = key ∧ c.owner = some o

/-- Nobody is handed over and no owner is replaced. -/
theorem World.Quiet.witnesses {w w' : World ε} {Q : Event → Prop} (h : w.Quiet Q w')
    (hQ : ∀ c, ¬Q (.commitCall c)) : w.Witnesses w' :=
  ⟨fun c hc ↦ absurd (h.history.since hc) (hQ c), fun key o ho ↦ .inl (by rw [h.owners, ho])⟩

/-! ## A hook that is committed by itself -/

/-- A hook only becomes active when its engine was asked. -/
theorem commitOneHook_called (path : Path) (runtime : RuntimeId) (planId ownerId : Id)
    (continuation : Option ContinuationInfo) (hook : Hook) (out : HookResult) (ledger : Ledger)
    (w : World ε)
    (hactive : (commitOneHook engines path runtime planId ownerId continuation hook out ledger
      w).1.result.outcome = .active) :
    Since w.history
      (commitOneHook engines path runtime planId ownerId continuation hook out ledger w).2.2.history
      (.commitCall (hook.commitRecord engines path runtime
        ((w.owners.lookup hook.targetKey).map Owner.headReplacement) w)) := by
  rw [commitOneHook] at hactive ⊢
  dsimp only at hactive ⊢
  split at hactive
  · cases hactive
  · rename_i hconflict
    rw [if_neg hconflict]
    generalize hsink : ({ ledger := ledger, planId := planId, runtimeOwnerId := ownerId
                          requestId := hook.hookId, publishedOriginal := 0
                          continuation := continuation
                          requiredPredecessor :=
                            (w.owners.lookup hook.targetKey).map Owner.headReplacement
                          recordFailed := false, observedEffects := 0 } : Sink) = sink at hactive ⊢
    obtain ⟨-, hdispatch⟩ := dispatchCommit_spec engines path runtime hook sink w
    rw [show sink.requiredPredecessor =
      (w.owners.lookup hook.targetKey).map Owner.headReplacement by rw [← hsink]] at hdispatch
    generalize dispatchCommit engines path runtime hook sink w = dispatched at hactive hdispatch ⊢
    obtain ⟨mutation, sink₁, w₁⟩ := dispatched
    dsimp only at hactive hdispatch ⊢
    have hrecover := recoverMutation_spec engines hook (w.owners.lookup hook.targetKey) mutation
      sink₁ out
    generalize recoverMutation engines hook (w.owners.lookup hook.targetKey) mutation sink₁ out =
      recovered at hactive hrecover ⊢
    obtain ⟨mutation', out'⟩ := recovered
    have hfinish := finishCommitAttempt_spec engines path runtime hook out' sink₁.ledger
      ledger.count mutation' sink₁ none true false w₁
    obtain ⟨mid, hadds, hmid⟩ := hfinish.world
    rcases hdispatch with heq | hquiet
    · -- an engine without a commit callback leaves nothing complete
      cases heq
      cases (hrecover (hfinish.active hactive).1).1
    · rw [hmid]
      have hcalled : Since w.history (w.log (.commitCall (hook.commitRecord engines path runtime
          ((w.owners.lookup hook.targetKey).map Owner.headReplacement) w))).history
          (.commitCall (hook.commitRecord engines path runtime
            ((w.owners.lookup hook.targetKey).map Owner.headReplacement) w)) :=
        ⟨[_], rfl, List.mem_singleton_self _⟩
      exact ((hcalled.later hquiet.history).later hadds.history).later
        ((World.Adds.refl mid).log (Q := fun _ ↦ True) trivial).history

/-- **A one-hook commit** knows the owner of its key, and leaves the others. -/
theorem commitOneHook_witnesses (path : Path) (runtime : RuntimeId) (planId ownerId : Id)
    (continuation : Option ContinuationInfo) (hook : Hook) (out : HookResult) (ledger : Ledger)
    (w : World ε) :
    w.Witnesses
        (commitOneHook engines path runtime planId ownerId continuation hook out ledger w).2.2 ∧
      ∀ key, key ≠ hook.targetKey →
        (commitOneHook engines path runtime planId ownerId continuation hook out ledger
          w).2.2.owners.lookup key = w.owners.lookup key := by
  have hspec := commitOneHook_spec engines path runtime planId ownerId continuation hook out ledger w
  have hcalled := commitOneHook_called engines path runtime planId ownerId continuation hook out
    ledger w
  generalize commitOneHook engines path runtime planId ownerId continuation hook out ledger w = r
    at hspec hcalled ⊢
  obtain ⟨hook', ledger', w'⟩ := r
  dsimp only at hspec hcalled ⊢
  obtain ⟨mid, required, published, hadds, rfl, hactive, hkept⟩ := hspec.world
  refine ⟨⟨fun c hc ↦ ?_, fun key o ho ↦ ?_⟩, fun key hkey ↦ ?_⟩
  · have hlast : mid.Adds (fun e ↦ ∃ r, e = .commitSettled r) (mid.log (.commitSettled
        (hook'.settledRecord engines path required published))) := (World.Adds.refl mid).log ⟨_, rfl⟩
    rcases hc.cases hadds.history hlast.history with hc | hc
    · obtain ⟨heq, hengine⟩ := hadds.history.since hc
      cases heq
      exact fun o ho ↦ ⟨hengine o ho, congrArg (Option.map Owner.headReplacement) ho⟩
    · obtain ⟨r, hr⟩ := hlast.history.since hc
      cases hr
  · by_cases houtcome : hook'.result.outcome = .active
    · by_cases hkey : key = hook.targetKey
      · subst hkey
        exact .inr ⟨_, hcalled houtcome, rfl, ho⟩
      · left
        rw [(hactive houtcome).2.2.2 key, if_neg hkey, ho]
    · left
      rw [hkept houtcome, ho]
  · by_cases houtcome : hook'.result.outcome = .active
    · rw [(hactive houtcome).2.2.2 key, if_neg hkey]
    · rw [hkept houtcome]

/-! ## A wave -/

/-- The owners of all other keys stay. -/
theorem recordMember_owners (member : Member) (w : World ε) {key : Key}
    (hkey : key ≠ member.hook.targetKey) :
    (recordMember engines member w).2.owners.lookup key = w.owners.lookup key := by
  rw [recordMember]
  generalize (if member.op.sink.recordFailed = true ∧ member.op.mutation = .complete then
    Mutation.unknown else member.op.mutation) = mutation
  dsimp only
  generalize (if mutation = .complete then
      (if (validateCommitEffects engines member.hook member.op.sink member.out).1 = true then
        mutation else .unknown,
        (validateCommitEffects engines member.hook member.op.sink member.out).2)
    else (mutation, member.out)) = checked
  split
  · have hcases := Owners.record_cases w.owners member.hook.targetKey
      (member.hook.caps engines).engineId member.hook.spec.replacement
      member.op.sink.publishedOriginal w.env
    rw [World.recordOwner]
    generalize Owners.record w.owners member.hook.targetKey (member.hook.caps engines).engineId
      member.hook.spec.replacement member.op.sink.publishedOriginal w.env = recorded at hcases ⊢
    obtain ⟨ok, owners, env⟩ := recorded
    rcases hcases with ⟨hok, howners⟩ | ⟨hok, howners⟩
    · cases hok
      exact congrArg (Owners.lookup · key) howners
    · cases hok
      exact (howners key).trans (if_neg hkey)
  · rfl

theorem recordMembers_owners (members : List Member) (w : World ε) {key : Key}
    (hkey : ∀ m ∈ members, key ≠ m.hook.targetKey) :
    (recordMembers engines members w).2.owners.lookup key = w.owners.lookup key := by
  induction members generalizing w with
  | nil => rfl
  | cons member rest ih =>
    rw [recordMembers]
    exact (ih _ fun m hm ↦ hkey m (List.mem_cons_of_mem member hm)).trans
      (recordMember_owners engines member w (hkey member List.mem_cons_self))

/-- Under the lock. -/
theorem commitGroupLocked_owners (engine : Engine ε) (runtime : RuntimeId) (members : List Member)
    (w : World ε) (hcommit : engine.commitGroupCtx.isSome) {key : Key}
    (hkey : ∀ m ∈ members, key ≠ m.hook.targetKey) :
    (commitGroupLocked engines engine runtime members w).2.2.owners.lookup key =
      w.owners.lookup key := by
  rw [commitGroupLocked]
  obtain ⟨hsame₁, hquiet₁, -⟩ := commitWave_spec engines engine runtime members w hcommit
  generalize commitWave engines engine runtime members w = committed at hsame₁ hquiet₁ ⊢
  obtain ⟨verdict, members₁, w₁⟩ := committed
  dsimp only at hsame₁ hquiet₁ ⊢
  obtain ⟨hsame₂, hquiet₂, -⟩ := verifyWave_spec (Q := fun _ ↦ False) engine verdict members₁ w₁
  generalize verifyWave engine verdict members₁ w₁ = verified at hsame₂ hquiet₂ ⊢
  obtain ⟨flag, members₂, w₂⟩ := verified
  dsimp only at hsame₂ hquiet₂ ⊢
  obtain ⟨hsame₃, hquiet₃, -⟩ := compensateWave_spec engine verdict flag members₂ w₂
  generalize compensateWave engine verdict flag members₂ w₂ = compensated at hsame₃ hquiet₃ ⊢
  obtain ⟨members₃, w₃⟩ := compensated
  dsimp only at hsame₃ hquiet₃ ⊢
  have hsame := members_trans hsame₁ (members_trans hsame₂ hsame₃)
  rw [recordMembers_owners engines members₃ w₃ fun m hm ↦ ?_, hquiet₃.owners, hquiet₂.owners,
    hquiet₁.owners]
  obtain ⟨m₀, hm₀, hm⟩ := Pointwise.mem_right hsame hm
  rw [hm.hook]
  exact hkey m₀ hm₀

/-- A group commit leaves the owners of all keys but its members'. -/
theorem commitGroup_owners (plan : CommitPlan) (count : Nat) (st : CommitState ε) {first : Hook}
    {rest : List Hook}
    (hwave : hooksAt st.hooks ((plan.order.drop st.position).take count) = first :: rest)
    (hcommit : (first.engine engines).commitGroupCtx.isSome) {key : Key}
    (hkey : ∀ hook ∈ first :: rest, key ≠ hook.targetKey) :
    (commitGroup engines plan count st).state.world.owners.lookup key =
      st.world.owners.lookup key := by
  rw [commitGroup]
  generalize st.world.env.allocAll 4 = allocated
  obtain ⟨ok, env⟩ := allocated
  cases ok with
  | false => rfl
  | true =>
    dsimp only
    rw [hwave]
    have halloc := allocMembers_quiet (Q := fun _ ↦ False) (first :: rest) (st.world.setEnv env)
    generalize allocMembers (first :: rest) (st.world.setEnv env) = allocated' at halloc ⊢
    obtain ⟨ok', w₀⟩ := allocated'
    cases ok' with
    | false => exact congrArg (Owners.lookup · key) halloc.owners
    | true =>
      dsimp only [List.head?_cons, Option.map_some, Option.getD_some, Flow.state_next] at halloc ⊢
      have hkeys : ∀ m ∈ (first :: rest).map (openOperation plan
          (first.engine engines).revalidateGroupCtx.isNone), key ≠ m.hook.targetKey := by
        intro m hm
        obtain ⟨hook, hmem, rfl⟩ := List.mem_map.mp hm
        exact hkey hook hmem
      generalize (first :: rest).map (openOperation plan
        (first.engine engines).revalidateGroupCtx.isNone) = members at hkeys ⊢
      have hlocked := commitGroupLocked_owners engines (first.engine engines) plan.runtime members
        w₀ hcommit hkeys
      generalize commitGroupLocked engines (first.engine engines) plan.runtime members w₀ = locked
        at hlocked ⊢
      obtain ⟨verified, members₁, w₁⟩ := locked
      dsimp only at hlocked ⊢
      obtain ⟨-, hquiet₂⟩ := appendMemberLedgers_spec (Q := fun _ ↦ False) members₁ st.ledger w₁
      generalize appendMemberLedgers members₁ st.ledger w₁ = appended at hquiet₂ ⊢
      obtain ⟨members₂, ledger₂, w₂⟩ := appended
      dsimp only at hquiet₂ ⊢
      obtain ⟨-, hquiet₃, -⟩ := finishMembers_spec engines plan.runtime verified members₂ ledger₂ w₂
      generalize finishMembers engines plan.runtime verified members₂ ledger₂ w₂ = finished
        at hquiet₃ ⊢
      obtain ⟨settled, ledger₃, w₃⟩ := finished
      dsimp only [CommitState.count] at hquiet₃ ⊢
      rw [hquiet₃.owners, hquiet₂.owners, hlocked, halloc.owners]
      rfl

/-- **A group commit** whose members have no owner takes nobody's place. -/
theorem commitGroup_witnesses (plan : CommitPlan) (count : Nat) (st : CommitState ε) {first : Hook}
    {rest : List Hook}
    (hwave : hooksAt st.hooks ((plan.order.drop st.position).take count) = first :: rest)
    (hcommit : (first.engine engines).commitGroupCtx.isSome)
    (hunowned : ∀ hook ∈ first :: rest, st.world.owners.lookup hook.targetKey = none) :
    st.world.Witnesses (commitGroup engines plan count st).state.world := by
  refine ⟨fun c hc ↦ ?_, fun key o ho ↦ .inl ?_⟩
  · rcases commitGroup_cases engines plan count st hwave hcommit with
      ⟨w', hquiet, heq⟩ | ⟨settled, ledger, w₁, w', hcommitted, heq⟩ <;> rw [heq] at hc
    · exact (hquiet.history.since hc).elim
    · rcases hcommitted.world.history.since hc with
        ⟨hook, hmem, heq⟩ | ⟨_, _, heq⟩ | ⟨_, _, _, _, _, _, heq⟩ <;> cases heq
      intro o ho
      have hnone := hunowned hook hmem
      rw [← hcommitted.reached.owners] at hnone
      cases hnone.symm.trans ho
  · rw [commitGroup_owners engines plan count st hwave hcommit fun hook hmem ↦ ?_, ho]
    rintro rfl
    cases (hunowned hook hmem).symm.trans ho

/-! ## The rest of a pass -/

/-- A hook that is visited by itself. -/
theorem commitSingle_witnesses (plan : CommitPlan) (index : Nat) (hook : Hook)
    (st : CommitState ε) :
    st.world.Witnesses (commitSingle engines plan index hook st).world ∧
      ∀ key, key ≠ hook.targetKey →
        (commitSingle engines plan index hook st).world.owners.lookup key =
          st.world.owners.lookup key := by
  -- a hook that is settled without a question
  have hsettled : ∀ r, st.world.Witnesses (st.world.log (.commitSettled r)) := fun r ↦
    (World.quiet_log (Q := fun e ↦ ∃ r, e = .commitSettled r) st.world ⟨r, rfl⟩).witnesses
      fun c ↦ by simp
  rw [commitSingle]
  split
  · exact ⟨hsettled _, fun _ _ ↦ rfl⟩
  dsimp only
  split
  · exact ⟨hsettled _, fun _ _ ↦ rfl⟩
  · exact commitOneHook_witnesses engines .single plan.runtime plan.planId plan.ownerId
      hook.preparedContinuation hook hook.result st.ledger st.world

theorem writeBack_length (hooks : List Hook) (order : List Nat) (settled : List Hook) :
    (writeBack hooks order settled).length = hooks.length := by
  induction order generalizing hooks settled with
  | nil => cases settled <;> rfl
  | cons i rest ih =>
    cases settled with
    | nil => rfl
    | cons hook settled => exact (ih _ _).trans List.length_set

/-- The hooks that are next in the order; a selection of one hook or none leaves one of them. -/
def CommitState.nextHooks (plan : CommitPlan) (count : Nat) (st : CommitState ε) : List Hook :=
  hooksAt st.hooks ((plan.order.drop st.position).take (max count 1))

/-- The selection has chosen a wave that its engine can commit. -/
def CommitState.Wave (engines : EngineRef → Engine ε) (plan : CommitPlan) (count : Nat)
    (st : CommitState ε) : Prop :=
  1 < count → ∃ first rest, st.nextHooks plan count = first :: rest ∧
    (first.engine engines).commitGroupCtx.isSome = true

section Chosen

variable {engines} {plan : CommitPlan} {count : Nat} {st : CommitState ε}

/-- **The rest of a pass**, when no member of its wave has an owner. -/
theorem commitChosen_witnesses (hwave : st.Wave engines plan count)
    (hunowned : 1 < count →
      ∀ hook ∈ st.nextHooks plan count, st.world.owners.lookup hook.targetKey = none) :
    st.world.Witnesses (commitChosen engines plan count st).state.world := by
  have hkept : st.world.Witnesses st.world :=
    (World.Quiet.refl (Q := fun _ ↦ False) st.world).witnesses fun _ ↦ id
  rw [commitChosen]
  split
  · exact hkept
  split
  · exact hkept
  rename_i index horder _ hook hget
  split
  · exact hkept
  split
  · rename_i hcount
    obtain ⟨first, rest, hnext, hcommit⟩ := hwave hcount
    have hunowned := hunowned hcount
    rw [hnext] at hunowned
    rw [CommitState.nextHooks, max_eq_left hcount.le] at hnext
    exact commitGroup_witnesses engines plan count st hnext hcommit hunowned
  · dsimp only [Flow.state_next]
    split
    · refine (markDomainCommitPreflightFailed_spec engines _ _ _ _).2.1.witnesses fun c hc ↦ ?_
      exact hc.2
    · exact (commitSingle_witnesses engines plan index hook st).1

/-- The owners of the keys it is not about stay. -/
theorem commitChosen_owners (hwave : st.Wave engines plan count) {key : Key}
    (hkey : ∀ hook ∈ st.nextHooks plan count, key ≠ hook.targetKey) :
    (commitChosen engines plan count st).state.world.owners.lookup key =
      st.world.owners.lookup key := by
  rw [commitChosen]
  split
  · rfl
  split
  · rfl
  rename_i index horder _ hook hget
  split
  · rfl
  split
  · rename_i hcount
    obtain ⟨first, rest, hnext, hcommit⟩ := hwave hcount
    rw [hnext] at hkey
    rw [CommitState.nextHooks, max_eq_left hcount.le] at hnext
    exact commitGroup_owners engines plan count st hnext hcommit hkey
  · rename_i hcount
    dsimp only [Flow.state_next]
    split
    · exact congrArg (Owners.lookup · key)
        (markDomainCommitPreflightFailed_spec engines _ _ _ _).2.1.owners
    · refine (commitSingle_witnesses engines plan index hook st).2 key (hkey hook ?_)
      rw [CommitState.nextHooks, max_eq_right (Nat.le_of_not_lt hcount), List.take_one,
        List.head?_drop, horder]
      simp [hooksAt, hget]

/-- No hook is lost. -/
theorem commitChosen_length (plan : CommitPlan) (count : Nat) (st : CommitState ε) :
    (commitChosen engines plan count st).state.hooks.length = st.hooks.length := by
  rw [commitChosen]
  split
  · rfl
  split
  · rfl
  split
  · rfl
  split
  · rw [commitGroup]
    split
    · rfl
    · dsimp only
      split
      · rfl
      · exact writeBack_length _ _ _
  · dsimp only [Flow.state_next]
    split
    · exact (markDomainCommitPreflightFailed_spec engines _ _ _ _).1.length_eq.symm
    · rw [commitSingle]
      split
      · exact List.length_set
      · dsimp only
        split <;> exact List.length_set

end Chosen

/-! ## A thread -/

namespace Committer

/-- How many hooks the selection has taken into the wave. -/
def taken (c : Committer ε) : Nat :=
  match c.selection with
  | .start => 0
  | .looked _ count => count
  | .chosen count => count

/-- The hooks of the wave, as far as they are known. -/
def claimed (c : Committer ε) : List Hook := c.waiting.take c.taken

/-- The hooks that the next turn hands to a group commit. -/
def wave (c : Committer ε) : List Hook :=
  match c.selection with
  | .chosen count => if count > 1 then c.waiting.take count else []
  | _ => []

/-- The hooks that the next turn may commit. -/
def commits (c : Committer ε) : List Hook :=
  match c.selection with
  | .chosen count => c.waiting.take (max count 1)
  | _ => []

/-- What a thread knows between its sections. -/
structure Fits (engines : EngineRef → Engine ε) (c : Committer ε) : Prop where
  valid : ∀ i ∈ c.loop.order, i < c.state.hooks.length
  looked : ∀ generation count, c.selection = .looked generation count → 0 < count
  claimed : 0 < c.taken → ∃ first rest, c.claimed = first :: rest ∧
    (first.engine engines).commitGroupCtx.isSome = true

section Turn

variable {engines} {c c' : Committer ε} {w : World ε} {count : Nat}

theorem Fits.nextHooks (h : c.Fits engines) (count : Nat) :
    c.state.nextHooks c.loop count = c.waiting.take (max count 1) :=
  hooksAt_take (fun i hi ↦ h.valid i (List.mem_of_mem_drop hi)) _

theorem Fits.wave (h : c.Fits engines) (hchosen : c.selection = .chosen count) :
    c.state.Wave engines c.loop count := by
  intro hcount
  rw [h.nextHooks, max_eq_left hcount.le]
  have htaken : c.taken = count := by rw [taken, hchosen]
  have hclaimed := h.claimed (htaken ▸ by omega)
  rwa [Committer.claimed, htaken] at hclaimed

/-- A selection that has taken nobody. -/
theorem Fits.nothing (h : c.Fits engines) : Fits engines { c with selection := .chosen 0 } :=
  ⟨h.valid, by simp, fun htaken ↦ absurd htaken (by simp [taken])⟩

/-- A lookup. -/
theorem Fits.look (h : c.Fits engines) (owners : Owners) (generation : Nat) :
    Fits engines { c with selection := c.selection.look engines owners generation c.waiting } := by
  cases hselection : c.selection with
  | chosen count =>
    rw [Selection.look, ← hselection]
    exact h
  | start =>
    rw [Selection.look]
    cases hwaiting : c.waiting with
    | nil => exact h.nothing
    | cons first rest =>
      dsimp only [List.head?_cons]
      split
      · rename_i hstarts
        rw [Bool.and_eq_true] at hstarts
        refine ⟨h.valid, ?_, fun _ ↦ ⟨first, [], ?_,
          (startsCommitWave_spec hstarts.1).2.2.2.2.1⟩⟩
        · rintro _ _ ⟨⟩
          exact Nat.one_pos
        · show c.waiting.take 1 = [first]
          rw [hwaiting]
          rfl
      · exact h.nothing
  | looked generation' count =>
    have hpos := h.looked generation' count hselection
    have htaken : c.taken = count := by rw [taken, hselection]
    obtain ⟨first, rest, hclaimed, hcommit⟩ := h.claimed (htaken.symm ▸ hpos)
    -- the wave begins with the same hook, however long it is
    have hfirst : ∀ n, 0 < n → ∃ rest, c.waiting.take n = first :: rest := by
      rw [Committer.claimed, htaken] at hclaimed
      intro n hn
      obtain ⟨n, rfl⟩ := Nat.exists_eq_succ_of_ne_zero hn.ne'
      obtain ⟨count, rfl⟩ := Nat.exists_eq_succ_of_ne_zero hpos.ne'
      cases hwaiting : c.waiting with
      | nil =>
        rw [hwaiting] at hclaimed
        cases hclaimed
      | cons first' rest' =>
        rw [hwaiting, List.take_succ_cons] at hclaimed
        rw [List.take_succ_cons, (List.cons.inj hclaimed).1]
        exact ⟨_, rfl⟩
    have hreturns : Fits engines { c with selection := .return count } := by
      refine ⟨h.valid, by simp [Selection.return], fun hmore ↦ ?_⟩
      obtain ⟨rest, hrest⟩ := hfirst _ hmore
      exact ⟨first, rest, hrest, hcommit⟩
    rw [Selection.look]
    split
    · split
      · refine ⟨h.valid, ?_, fun _ ↦ ?_⟩
        · rintro _ _ ⟨⟩
          exact Nat.succ_pos _
        · obtain ⟨rest, hrest⟩ := hfirst (count + 1) (Nat.succ_pos _)
          exact ⟨first, rest, hrest, hcommit⟩
      · exact hreturns
    · exact hreturns

/-- The process that a turn leaves. -/
def Turned.world : Turned ε → World ε
  | .more c => c.state.world
  | .ended flow => flow.state.world

/-- The ways through a turn: a lookup, the rest of a pass, or the end of the loop. -/
inductive Turns (engines : EngineRef → Engine ε) (c : Committer ε) (w : World ε) :
    Turned ε → Prop where
  | looks : Turns engines c w (.more { c with
      state := { c.state with world := w }
      selection := c.selection.look engines w.owners (w.env.generation c.loop.runtime) c.waiting })
  | passes {count : Nat} {st : CommitState ε} (hchosen : c.selection = .chosen count)
      (hpass : commitChosen engines c.loop count { c.state with world := w } = .next st) :
    Turns engines c w (.more { c with state := st, selection := .start })
  | stops {count : Nat} {st : CommitState ε} (hchosen : c.selection = .chosen count)
      (hpass : commitChosen engines c.loop count { c.state with world := w } = .stop st) :
    Turns engines c w (.ended (.stop st))
  | ends : Turns engines c w (.ended (.next { c.state with world := w }))

theorem turn_turns (c : Committer ε) (w : World ε) : c.Turns engines w (c.turn engines w) := by
  rw [turn]
  dsimp only
  split
  · split
    · rename_i count hchosen
      cases hpass : commitChosen engines c.loop count { c.state with world := w } with
      | stop st => exact .stops hchosen hpass
      | next st => exact .passes hchosen hpass
    · exact .looks
  · exact .ends

/-- A thread that goes on. -/
theorem Fits.turn (h : c.Fits engines) (hturn : c.turn engines w = .more c') : c'.Fits engines := by
  have hturns := @turn_turns _ engines c w
  rw [hturn] at hturns
  cases hturns with
  | looks =>
    have hlook := h.look w.owners (w.env.generation c.loop.runtime)
    exact ⟨hlook.valid, hlook.looked, hlook.claimed⟩
  | @passes count st hchosen hpass =>
    have hlength := @commitChosen_length _ engines c.loop count { c.state with world := w }
    rw [hpass] at hlength
    exact ⟨fun i hi ↦ (h.valid i hi).trans_eq hlength.symm, by simp,
      fun htaken ↦ absurd htaken (by simp [taken])⟩

/-- Nobody that a thread is about to commit as a wave has an owner. -/
theorem Fits.turn_witnesses (h : c.Fits engines)
    (hunowned : ∀ hook ∈ c.wave, w.owners.lookup hook.targetKey = none) :
    w.Witnesses (c.turn engines w).world := by
  have hkept : w.Witnesses w :=
    (World.Quiet.refl (Q := fun _ ↦ False) w).witnesses fun _ ↦ id
  have hpasses : ∀ count, c.selection = .chosen count → w.Witnesses
      (commitChosen engines c.loop count { c.state with world := w }).state.world := by
    intro count hchosen
    refine @commitChosen_witnesses _ engines c.loop count { c.state with world := w }
      (h.wave hchosen) fun hcount hook hmem ↦ hunowned hook ?_
    have hnext := h.nextHooks count
    rw [max_eq_left hcount.le] at hnext
    rw [Committer.wave, hchosen]
    dsimp only
    rw [if_pos hcount, ← hnext]
    exact hmem
  have hturns := @turn_turns _ engines c w
  generalize c.turn engines w = turned at hturns ⊢
  cases hturns with
  | looks => exact hkept
  | ends => exact hkept
  | passes hchosen hpass =>
    have hpass' := hpasses _ hchosen
    rw [hpass] at hpass'
    exact hpass'
  | stops hchosen hpass =>
    have hpass' := hpasses _ hchosen
    rw [hpass] at hpass'
    exact hpass'

/-- Whoever a lookup has taken into the wave has no owner. -/
theorem look_claimed (owners : Owners) (generation : Nat) {hook : Hook}
    (hmem : hook ∈ claimed { c with
      selection := c.selection.look engines owners generation c.waiting }) :
    hook ∈ c.claimed ∨ owners.lookup hook.targetKey = none := by
  cases hselection : c.selection with
  | chosen count =>
    rw [hselection, Selection.look, ← hselection] at hmem
    exact .inl hmem
  | start =>
    rw [hselection, Selection.look] at hmem
    split at hmem
    · cases hmem
    · rename_i first hfirst
      split at hmem
      · rename_i hstarts
        rw [Bool.and_eq_true, Option.isNone_iff_eq_none] at hstarts
        change hook ∈ c.waiting.take 1 at hmem
        rw [List.take_one, hfirst] at hmem
        exact .inr (List.mem_singleton.mp hmem ▸ hstarts.2)
      · cases hmem
  | looked generation' count =>
    have hclaimed : c.claimed = c.waiting.take count := by rw [claimed, taken, hselection]
    have hreturn : hook ∈ claimed { c with selection := .return count } → hook ∈ c.claimed := by
      intro hmem
      change hook ∈ c.waiting.take (if count > 1 then count else 0) at hmem
      split at hmem
      · exact hclaimed ▸ hmem
      · cases hmem
    rw [hselection, Selection.look] at hmem
    split at hmem
    · rename_i first next _ hnext
      split at hmem
      · rename_i hjoins
        rw [Bool.and_eq_true, Option.isNone_iff_eq_none] at hjoins
        change hook ∈ c.waiting.take (count + 1) at hmem
        rw [List.take_add_one, hnext, ← hclaimed, List.mem_append] at hmem
        refine hmem.imp_right fun hmem ↦ ?_
        obtain rfl := List.mem_singleton.mp hmem
        exact hjoins.2
      · exact .inl (hreturn hmem)
    · exact .inl (hreturn hmem)

/-- A turn leaves the owners of the keys it does not commit on. -/
theorem Fits.turn_owners (h : c.Fits engines) {key : Key}
    (hkey : ∀ hook ∈ c.commits, key ≠ hook.targetKey) :
    (c.turn engines w).world.owners.lookup key = w.owners.lookup key := by
  have hpasses : ∀ count, c.selection = .chosen count →
      (commitChosen engines c.loop count
        { c.state with world := w }).state.world.owners.lookup key = w.owners.lookup key := by
    intro count hchosen
    refine @commitChosen_owners _ engines c.loop count { c.state with world := w }
      (h.wave hchosen) key fun hook hmem ↦ hkey hook ?_
    have hnext := h.nextHooks count
    rw [commits, hchosen]
    dsimp only
    rw [← hnext]
    exact hmem
  have hturns := @turn_turns _ engines c w
  generalize c.turn engines w = turned at hturns ⊢
  cases hturns with
  | looks => rfl
  | ends => rfl
  | passes hchosen hpass =>
    have hpass' := hpasses _ hchosen
    rw [hpass] at hpass'
    exact hpass'
  | stops hchosen hpass =>
    have hpass' := hpasses _ hchosen
    rw [hpass] at hpass'
    exact hpass'

end Turn

end Committer

/-! ## The process -/

/-- What comes behind the loop hands nobody over. -/
theorem finishCommit_quiet (runtime : Runtime) (plan : Plan) (flow : Flow (CommitState ε)) :
    flow.state.world.Quiet (fun _ ↦ False) (finishCommit runtime plan flow).2.2.2 := by
  cases flow with
  | stop st => exact .refl _
  | next st =>
    have hreport := createReport_quiet (Q := fun _ ↦ False) plan.hooks.length st.world
    rw [finishCommit]
    dsimp only [Flow.state_next]
    generalize createReport plan.hooks.length st.world = report at hreport ⊢
    obtain ⟨ok, w⟩ := report
    cases ok with
    | false => exact hreport
    | true => exact hreport.trans (publishArtifacts_spec runtime st.ledger w).2

/-- A call that keeps the targets hands nobody over. -/
theorem System.step_keepsTargets (stripCode : Ptr → Ptr) (s : System ε) {op : Op ε}
    (hop : op.keepsTargets = true) :
    s.world.Quiet Event.preparing (s.step engines stripCode op).world := by
  have hstep := step_stepped engines stripCode s op
  generalize s.step engines stripCode op = s' at hstep ⊢
  cases hstep with
  | idle h => exact h.mono fun _ ↦ False.elim
  | drafted _ _ _ h => exact h.mono fun _ ↦ False.elim
  | analyzed _ _ _ _ _ h => exact h.mono fun _ ↦ False.elim
  | @prepared slot plan _ _ _ hplan hcall =>
    have h := (preparePlan_spec engines plan s.world).1
    rw [hcall] at h
    exact h.mono fun _ ↦ Event.ofPrepare.preparing
  | committed => cases hop
  | @released slot plan _ _ hplan hcall =>
    have h := (releaseHooks_spec engines plan.hooks (s.runtimes plan.runtime) s.world).2
    rw [← releasePlan, hcall] at h
    exact h.mono fun _ ↦ Event.ofState.preparing
  | drained => cases hop
  | @freed runtime _ _ hcall =>
    have h := @freePendingHooks_quiet _ engines (s.runtimes runtime) s.world
    rw [hcall] at h
    exact h.mono fun _ ↦ Event.ofState.preparing

namespace Concurrent

/-- **The law**: a turn overwrites nobody unseen. -/
def Witnesses (engines : EngineRef → Engine ε) (stripCode : Ptr → Ptr) (s : Concurrent ε)
    (turn : Turn ε) : Prop :=
  s.system.world.Witnesses (s.step engines stripCode turn).system.world

/-- No group commit begins when one of its keys has got an owner. -/
def Unraced (s : Concurrent ε) : Turn ε → Prop
  | .goes slot => ∀ c ∈ s.threads slot, ∀ hook ∈ c.wave,
    s.system.world.owners.lookup hook.targetKey = none
  | _ => True

instance : ∀ (s : Concurrent ε) (turn : Turn ε), Decidable (s.Unraced turn)
  | s, .goes slot => inferInstanceAs (Decidable (∀ c ∈ s.threads slot, ∀ hook ∈ c.wave, _))
  | _, .begins _ | _, .call _ _ => inferInstanceAs (Decidable True)

/-- What all threads know. -/
def Fits (engines : EngineRef → Engine ε) (s : Concurrent ε) : Prop :=
  ∀ slot c, s.threads slot = some c → c.Fits engines

variable {engines} {stripCode : Ptr → Ptr} {s : Concurrent ε} {turn : Turn ε} {slot : Nat}

theorem Fits.put (h : s.Fits engines) {c : Committer ε} (hc : c.Fits engines) :
    (s.put slot c).Fits engines := by
  intro slot' c' hc'
  by_cases hslot : slot' = slot
  · subst hslot
    have hself : (s.put slot' c).threads slot' = some c := Function.update_self _ _ _
    cases hself.symm.trans hc'
    exact hc
  · exact h slot' c' ((Function.update_of_ne hslot _ s.threads).symm.trans hc')

theorem Fits.finish (h : s.Fits engines) (plan : Plan) (flow : Flow (CommitState ε)) :
    (s.finish slot plan flow).Fits engines := by
  intro slot' c' hc'
  by_cases hslot : slot' = slot
  · subst hslot
    have hself : (s.finish slot' plan flow).threads slot' = none := Function.update_self _ _ _
    cases hself.symm.trans hc'
  · exact h slot' c' ((Function.update_of_ne hslot _ s.threads).symm.trans hc')

theorem step_fits (h : s.Fits engines) (turn : Turn ε) :
    (s.step engines stripCode turn).Fits engines := by
  cases turn with
  | call op hop => exact h
  | begins slot =>
    rw [step]
    split
    · rename_i plan _ _
      rw [start]
      split
      · exact h
      · have horder := (allocCommit_spec (Q := fun _ ↦ False) plan s.system.world).2
        generalize allocCommit plan s.system.world = allocated at horder ⊢
        obtain ⟨order?, w⟩ := allocated
        cases order? with
        | none => exact h
        | some order =>
          refine h.put
            ⟨fun i hi ↦ ?_, by simp, fun htaken ↦ absurd htaken (by simp [Committer.taken])⟩
          obtain ⟨hook, hget, -⟩ := (horder order rfl).2 i hi
          exact (List.getElem?_eq_some_iff.mp hget).1
    · exact h
  | goes slot =>
    rw [step]
    split
    · exact h
    · rename_i c hc
      rw [goOn]
      cases hturn : c.turn engines s.system.world with
      | more c' => exact h.put ((h slot c hc).turn hturn)
      | ended flow => exact h.finish c.plan flow

/-- **A turn that is not raced overwrites nobody unseen.** -/
theorem step_witnesses (h : s.Fits engines) (hturn : s.Unraced turn) :
    s.Witnesses engines stripCode turn := by
  have hkept : s.system.world.Witnesses s.system.world :=
    (World.Quiet.refl (Q := fun _ ↦ False) s.system.world).witnesses fun _ ↦ id
  rw [Witnesses]
  cases turn with
  | call op hop =>
    exact (s.system.step_keepsTargets engines stripCode hop).witnesses fun _ ↦ id
  | begins slot =>
    rw [step]
    split
    · rename_i plan _ _
      rw [start]
      split
      · exact hkept
      · have hquiet := (allocCommit_spec (Q := fun _ ↦ False) plan s.system.world).1
        generalize allocCommit plan s.system.world = allocated at hquiet ⊢
        obtain ⟨order?, w⟩ := allocated
        cases order? <;> exact hquiet.witnesses fun _ ↦ id
    · exact hkept
  | goes slot =>
    rw [step]
    split
    · exact hkept
    · rename_i c hc
      have hwitnesses := (h slot c hc).turn_witnesses (hturn c hc)
      have hturns := @Committer.turn_turns _ engines c s.system.world
      rw [goOn]
      generalize c.turn engines s.system.world = turned at hwitnesses hturns ⊢
      cases hturns with
      | looks => exact hwitnesses
      | passes => exact hwitnesses
      | stops => exact hwitnesses
      | ends =>
        have hquiet := finishCommit_quiet (s.system.runtimes c.plan.runtime) c.plan
          (.next { c.state with world := s.system.world })
        exact hquiet.witnesses fun _ ↦ id

/-- **Every turn of a schedule overwrites nobody unseen**, if no group commit begins when one of its
keys has got an owner. -/
theorem witnesses_run (engines : EngineRef → Engine ε) (stripCode : Ptr → Ptr) {s : Concurrent ε}
    (hidle : ∀ slot, s.threads slot = none) (turns : List (Turn ε))
    (hmeets : Meets engines stripCode Unraced s turns) :
    Meets engines stripCode (Witnesses engines stripCode) s turns := by
  have hfits : s.Fits engines := fun slot c hc ↦ by rw [hidle slot] at hc; cases hc
  clear hidle
  induction turns generalizing s with
  | nil => trivial
  | cons turn rest ih => exact ⟨step_witnesses hfits hmeets.1, ih hmeets.2 (step_fits hfits turn)⟩

/-! ### Keys that are selected -/

/-- No thread commits a hook on a key that another thread has selected. -/
def Separate (s : Concurrent ε) : Turn ε → Prop
  | .goes slot => ∀ c ∈ s.threads slot, ∀ slot' c', slot' ≠ slot → s.threads slot' = some c' →
    ∀ hook ∈ c.commits, ∀ claimed ∈ c'.claimed, claimed.targetKey ≠ hook.targetKey
  | _ => True

/-- Nobody that a thread has taken into its wave has an owner. -/
def Unowned (s : Concurrent ε) : Prop :=
  ∀ slot c, s.threads slot = some c → ∀ hook ∈ c.claimed,
    s.system.world.owners.lookup hook.targetKey = none

/-- Going on with keys that have no owner. -/
theorem Unowned.put {c : Committer ε}
    (hown : ∀ hook ∈ c.claimed, c.state.world.owners.lookup hook.targetKey = none)
    (hothers : ∀ slot' c', slot' ≠ slot → s.threads slot' = some c' → ∀ hook ∈ c'.claimed,
      c.state.world.owners.lookup hook.targetKey = none) : (s.put slot c).Unowned := by
  intro slot' c' hc'
  by_cases hslot : slot' = slot
  · subst hslot
    have hself : (s.put slot' c).threads slot' = some c := Function.update_self _ _ _
    cases hself.symm.trans hc'
    exact hown
  · exact hothers slot' c' hslot ((Function.update_of_ne hslot _ s.threads).symm.trans hc')

/-- A thread that is done. -/
theorem Unowned.finish (plan : Plan) (flow : Flow (CommitState ε))
    (hothers : ∀ slot' c', slot' ≠ slot → s.threads slot' = some c' → ∀ hook ∈ c'.claimed,
      flow.state.world.owners.lookup hook.targetKey = none) : (s.finish slot plan flow).Unowned := by
  intro slot' c' hc' hook hmem
  by_cases hslot : slot' = slot
  · subst hslot
    have hself : (s.finish slot' plan flow).threads slot' = none := Function.update_self _ _ _
    cases hself.symm.trans hc'
  · have hquiet := finishCommit_quiet (s.system.runtimes plan.runtime) plan flow
    exact (congrArg (Owners.lookup · hook.targetKey) hquiet.owners).trans
      (hothers slot' c' hslot ((Function.update_of_ne hslot _ s.threads).symm.trans hc') hook hmem)

/-- A turn of a thread, as the keys of the others see it. -/
theorem Unowned.goOn (h : s.Unowned) (hfits : s.Fits engines) {c : Committer ε}
    (hc : s.threads slot = some c) (hseparate : s.Separate (.goes slot)) :
    (s.goOn engines slot c).Unowned := by
  have hothers : ∀ slot' c', slot' ≠ slot → s.threads slot' = some c' → ∀ hook ∈ c'.claimed,
      (c.turn engines s.system.world).world.owners.lookup hook.targetKey = none := by
    intro slot' c' hslot hc' hook hmem
    rw [(hfits slot c hc).turn_owners fun committed hcommitted ↦
      hseparate c hc slot' c' hslot hc' committed hcommitted hook hmem]
    exact h slot' c' hc' hook hmem
  have hturns := @Committer.turn_turns _ engines c s.system.world
  rw [Concurrent.goOn]
  generalize c.turn engines s.system.world = turned at hturns hothers ⊢
  cases hturns with
  | looks =>
    refine .put (fun hook hmem ↦ ?_) hothers
    rcases Committer.look_claimed _ _ hmem with hmem | hnone
    · exact h slot c hc hook hmem
    · exact hnone
  | passes => exact .put (by simp [Committer.claimed, Committer.taken]) hothers
  | stops => exact .finish c.plan _ hothers
  | ends => exact .finish c.plan _ hothers

theorem step_unowned (h : s.Unowned) (hfits : s.Fits engines) (hturn : s.Separate turn) :
    (s.step engines stripCode turn).Unowned := by
  cases turn with
  | call op hop =>
    intro slot c hc hook hmem
    rw [step, (s.system.step_keepsTargets engines stripCode hop).owners]
    exact h slot c hc hook hmem
  | begins slot =>
    rw [step]
    split
    · rename_i plan _ _
      rw [start]
      split
      · exact h
      · have hquiet := (allocCommit_spec (Q := fun _ ↦ False) plan s.system.world).1
        generalize allocCommit plan s.system.world = allocated at hquiet ⊢
        obtain ⟨order?, w⟩ := allocated
        have hkept : ∀ slot' c', s.threads slot' = some c' → ∀ hook ∈ c'.claimed,
            w.owners.lookup hook.targetKey = none := by
          intro slot' c' hc' hook hmem
          rw [hquiet.owners]
          exact h slot' c' hc' hook hmem
        cases order? with
        | none => exact hkept
        | some order =>
          exact .put (by simp [Committer.claimed, Committer.taken]) fun slot' c' _ ↦ hkept slot' c'
    · exact h
  | goes slot =>
    rw [step]
    split
    · exact h
    · rename_i c hc
      exact h.goOn hfits hc hturn

/-- A wave is one that the thread has selected. -/
theorem Unowned.unraced (h : s.Unowned) (turn : Turn ε) : s.Unraced turn := by
  cases turn with
  | goes slot =>
    intro c hc hook hmem
    refine h slot c hc hook ?_
    rw [Committer.wave] at hmem
    rw [Committer.claimed, Committer.taken]
    split at hmem
    · rename_i count hchosen
      split at hmem
      · rw [hchosen]
        exact hmem
      · cases hmem
    · cases hmem
  | _ => trivial

/-- **Selected keys are enough**: no group commit finds an owner, if no thread commits on a key that
another thread has selected. -/
theorem unraced_run (engines : EngineRef → Engine ε) (stripCode : Ptr → Ptr) {s : Concurrent ε}
    (hidle : ∀ slot, s.threads slot = none) (turns : List (Turn ε))
    (hmeets : Meets engines stripCode Separate s turns) :
    Meets engines stripCode Unraced s turns := by
  have hfits : s.Fits engines := fun slot c hc ↦ by rw [hidle slot] at hc; cases hc
  have hunowned : s.Unowned := fun slot c hc ↦ by rw [hidle slot] at hc; cases hc
  clear hidle
  induction turns generalizing s with
  | nil => trivial
  | cons turn rest ih =>
    exact ⟨hunowned.unraced turn,
      ih hmeets.2 (step_fits hfits turn) (step_unowned hunowned hfits hmeets.1)⟩

/-! ## Two threads on one key -/

/-- The process before anything happens. -/
def fresh : Concurrent Unit where
  system := System.fresh () fun _ ↦ 0
  threads := fun _ ↦ none

end Concurrent

/-- An engine that commits waves, and everything else too. -/
def Engine.committing : Engine Unit := .transactional (fun _ ↦ .ok) Operation.same

/-- Two plans are prepared, a wave of two hooks and one more hook on the key of the first. -/
def Turn.preparing : List (Turn Unit) :=
  [.call (.createPlan 0 0) rfl, .call (.addHook 0 (.atAddress "first" 0x1000 1)) rfl,
    .call (.addHook 0 (.atAddress "second" 0x2000 2)) rfl, .call (.analyze 0) rfl,
    .call (.prepare 0) rfl, .call (.createPlan 1 0) rfl,
    .call (.addHook 1 (.atAddress "third" 0x1000 3)) rfl, .call (.analyze 1) rfl,
    .call (.prepare 1) rfl]

/-- The first plan has chosen its wave; then the second plan is committed as far as its hook. -/
def Turn.racing : List (Turn Unit) :=
  [.begins 0, .goes 0, .goes 0, .goes 0, .begins 1, .goes 1, .goes 1, .goes 1]

namespace Concurrent

/-- The threads take turns, and the second comes to its key when the wave is committed. -/
theorem witnesses_run_apart :
    Meets (fun _ ↦ Engine.committing) id (Witnesses (fun _ ↦ Engine.committing) id) fresh
      (Turn.preparing ++ [.begins 0, .begins 1, .goes 0, .goes 0, .goes 0, .goes 0, .goes 1,
        .goes 0, .goes 1, .goes 1, .goes 1]) :=
  witnesses_run (fun _ ↦ Engine.committing) id (fun _ ↦ rfl) _ (by decide +kernel)

/-- The wave has been chosen, and its first key has got an owner since. -/
def raced : Concurrent Unit :=
  fresh.run (fun _ ↦ .committing) id (Turn.preparing ++ Turn.racing)

/-- The wave is committed over the owner, and no engine was told of it. -/
theorem overwritten_unseen :
    (∀ slot, fresh.threads slot = none) ∧
      ¬Meets (fun _ ↦ Engine.committing) id (Witnesses (fun _ ↦ Engine.committing) id) fresh
        (Turn.preparing ++ Turn.racing ++ [.goes 0]) := by
  refine ⟨fun _ ↦ rfl, fun h ↦ ?_⟩
  have hlaw : Witnesses (fun _ ↦ .committing) id raced (.goes 0) := h.append.1
  obtain ⟨⟨key, o⟩, hmem, howner, hreplaced, hunseen⟩ : ∃ p ∈ raced.system.world.owners,
      raced.system.world.owners.lookup p.1 = some p.2 ∧
        (raced.step (fun _ ↦ .committing) id (.goes 0)).system.world.owners.lookup p.1 ≠ some p.2 ∧
        ∀ c ∈ commitCalls (raced.step (fun _ ↦ .committing) id (.goes 0)).system.world.history,
          c.owner = some p.2 → c.requiredPredecessor ≠ some p.2.headReplacement := by
    decide +kernel
  obtain ⟨c, hsince, -, hseen⟩ := (hlaw.overwritten key o howner).resolve_left hreplaced
  obtain ⟨added, hhistory, hcall⟩ := hsince
  refine hunseen c ?_ hseen (hlaw.called c ⟨added, hhistory, hcall⟩ o hseen).2
  rw [hhistory, commitCalls, List.mem_filterMap]
  exact ⟨.commitCall c, List.mem_append_left _ hcall, rfl⟩

end Concurrent

end HookKit
