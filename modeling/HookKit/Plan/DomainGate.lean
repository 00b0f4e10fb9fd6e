import HookKit.Plan.PrepareCounts

/-!
# The gate of a domain

A domain may require that all its mandatory members are prepared.  A preparation looks at them once
before its loop; while the gate is open, the first mandatory member that fails takes the prepared
ones back, and nobody is prepared after it.

* `Hook.Judged`, `DomainPass` — what one pass makes of the members of a domain.
* `prepareIter_domain` — every pass is one of these.
* `PrepareState.Gated` — what the passes keep.
* `preparePlan_boundary` — no member of a domain in which a mandatory one is missing is prepared,
  unless an earlier call has left one.
-/

set_option autoImplicit false

namespace HookKit

open Loop Trace

variable {ε : Type} (engines : EngineRef → Engine ε)

/-! ## Rolling back -/

/-- A domain is taken back without a look at the others. -/
theorem releaseDomainMembers_other {domain id : Id} (hne : domain ≠ id) {hooks : List Hook}
    {i : Nat} {hook : Hook} (hget : hooks[i]? = some hook) (hdomain : hook.spec.domain = some id)
    (w : World ε) : (releaseDomainMembers engines domain hooks w).1[i]? = some hook := by
  induction hooks generalizing i w with
  | nil => cases hget
  | cons first rest ih =>
    rw [releaseDomainMembers]
    cases i with
    | zero =>
      cases hget
      rw [if_neg fun h ↦ hne (Option.some.inj (h.1.symm.trans hdomain))]
      rfl
    | succ i =>
      split
      · exact ih hget _
      · exact ih hget w

/-- None of its members is prepared afterwards. -/
theorem releaseDomainMembers_none (domain : Id) (hooks : List Hook) (w : World ε) :
    ∀ hook ∈ (releaseDomainMembers engines domain hooks w).1, hook.spec.domain = some domain →
      hook.result.outcome ≠ .prepared := by
  induction hooks generalizing w with
  | nil => exact fun hook hmem ↦ absurd hmem List.not_mem_nil
  | cons first rest ih =>
    intro hook hmem hdomain
    rw [releaseDomainMembers] at hmem
    split at hmem
    · rcases List.mem_cons.mp hmem with rfl | hmem
      · simp [HookResult.withError]
      · exact ih _ hook hmem hdomain
    · rename_i hkept
      rcases List.mem_cons.mp hmem with rfl | hmem
      · exact fun hprepared ↦ hkept ⟨hdomain, hprepared⟩
      · exact ih w hook hmem hdomain

/-! ## One pass, seen from one domain -/

/-- What becomes of the members of a domain. -/
def OfDomain (id : Id) (R : Hook → Hook → Prop) (hooks hooks' : List Hook) : Prop :=
  ∀ (i : Nat) (hook hook' : Hook), hooks[i]? = some hook → hooks'[i]? = some hook' →
    hook.spec.domain = some id → R hook hook'

/-- The gate is open, and no mandatory member has failed. -/
def PrepareState.Open (gateOk : Id → Bool) (id : Id) (st : PrepareState ε) : Prop :=
  gateOk id = true ∧ st.domainFailed id = false

/-- A member is left alone, or it had a route and gets a verdict: it is only prepared while the
domain is open, and a mandatory one only fails when it is not. -/
def Hook.Judged (isOpen : Prop) (hook hook' : Hook) : Prop :=
  hook' = hook ∨ hook.result.outcome = .analyzed ∧ (hook'.result.outcome = .prepared → isOpen) ∧
    (hook.spec.role = .mandatory → hook'.result.outcome.isPrepareFailure = true → ¬isOpen)

/-- No member of the domain is prepared. -/
def NonePrepared (id : Id) (hooks : List Hook) : Prop :=
  ∀ hook ∈ hooks, hook.spec.domain = some id → hook.result.outcome ≠ .prepared

/-- What a pass makes of a domain. -/
inductive DomainPass (gateOk : Id → Bool) (id : Id) (st st' : PrepareState ε) : Prop where
  | judged (hfailed : st'.domainFailed id = st.domainFailed id)
      (hmembers : OfDomain id (Hook.Judged (st.Open gateOk id)) st.hooks st'.hooks)
  /-- A mandatory member has failed. -/
  | takenBack (hgate : gateOk id = true) (hfailed : st'.domainFailed id = true)
      (hnone : NonePrepared id st'.hooks)

section Pass

variable {domains : List Domain} {gateOk : Id → Bool} {id : Id} {domain : Domain}
  {st st' st₁ : PrepareState ε} {hook hook' : Hook} {index : Nat}

/-- A pass that touches no member. -/
theorem DomainPass.kept (hfailed : st'.domainFailed id = st.domainFailed id)
    (hkept : OfDomain id (fun hook hook' ↦ hook' = hook) st.hooks st'.hooks) :
    DomainPass gateOk id st st' :=
  .judged hfailed fun i hook hook' hget hget' hdomain ↦ .inl (hkept i hook hook' hget hget' hdomain)

/-- A pass that settles one hook. -/
theorem DomainPass.settled (hfailed : st'.domainFailed id = st.domainFailed id)
    (hget : st.hooks[index]? = some hook) (hhooks : st'.hooks = st.hooks.set index hook')
    (hjudged : hook.spec.domain = some id → hook.Judged (st.Open gateOk id) hook') :
    DomainPass gateOk id st st' := by
  refine .judged hfailed fun i member member' hmember hmember' hdomain ↦ ?_
  rw [hhooks] at hmember'
  by_cases hi : index = i
  · subst hi
    rw [List.getElem?_set_self (List.getElem?_eq_some_iff.mp hget).1] at hmember'
    cases hget.symm.trans hmember
    cases hmember'
    exact hjudged hdomain
  · rw [List.getElem?_set_ne hi] at hmember'
    exact .inl (Option.some.inj (hmember'.symm.trans hmember))

/-- The counters are not part of it. -/
theorem DomainPass.counted {attempted : Nat}
    (h : DomainPass gateOk id { st with attempted := attempted } st') (index : Nat) :
    DomainPass gateOk id st { st' with index := index } := by
  cases h with
  | judged hfailed hmembers => exact .judged hfailed hmembers
  | takenBack hgate hfailed hnone => exact .takenBack hgate hfailed hnone

/-- The domain of a member. -/
theorem domainOf_of_find (hfind : domains.find? (fun d ↦ d.domainId = id) = some domain)
    (hdomain : hook.spec.domain = some id) : domainOf domains hook = some domain := by
  rw [domainOf, hdomain]
  exact hfind

theorem domainId_of_find (hfind : domains.find? (fun d ↦ d.domainId = id) = some domain) :
    domain.domainId = id := by simpa using List.find?_some hfind

/-- The failure of a hook of another domain. -/
theorem failDomain_other (domains : List Domain) (gateOk : Id → Bool) (st : PrepareState ε)
    (hother : hook.spec.domain ≠ some id) :
    (failDomain engines domains gateOk hook st).domainFailed id = st.domainFailed id ∧
      OfDomain id (fun hook hook' ↦ hook' = hook) st.hooks
        (failDomain engines domains gateOk hook st).hooks := by
  have hsame : OfDomain id (fun hook hook' ↦ hook' = hook) st.hooks st.hooks :=
    fun i hook hook' hget hget' _ ↦ Option.some.inj (hget'.symm.trans hget)
  rw [failDomain]
  split
  · exact ⟨rfl, hsame⟩
  · rename_i domain hdomain
    split
    · have hne : domain.domainId ≠ id := by
        rintro rfl
        obtain ⟨id, hid, hfind⟩ := Option.bind_eq_some_iff.mp hdomain
        exact hother (hid.trans (congrArg some (domainId_of_find hfind).symm))
      refine ⟨Function.update_of_ne hne.symm _ _, fun i hook hook' hget hget' hdomain ↦ ?_⟩
      have hkept := releaseDomainMembers_other engines hne hget hdomain st.world
      exact Option.some.inj (hget'.symm.trans hkept)
    · exact ⟨rfl, hsame⟩

/-- A hook that had a route and has failed. -/
theorem failDomain_pass (hfind : domains.find? (fun d ↦ d.domainId = id) = some domain)
    (hrequires : domain.spec.requireAllMandatoryPrepared = true)
    (hget : st.hooks[index]? = some hook) (hanalyzed : hook.result.outcome = .analyzed)
    (hspec : hook'.spec = hook.spec) (hfails : hook'.result.outcome.isPrepareFailure = true)
    (hhooks : st₁.hooks = st.hooks.set index hook') (hflags : st₁.domainFailed = st.domainFailed) :
    DomainPass gateOk id st (failDomain engines domains gateOk hook' st₁) := by
  have hne : hook'.result.outcome ≠ .prepared := by
    intro h
    rw [h] at hfails
    cases hfails
  by_cases hown : hook.spec.domain = some id
  · rw [failDomain, domainOf_of_find hfind (hspec ▸ hown)]
    dsimp only
    rw [domainId_of_find hfind]
    split
    · rename_i hmandatory
      exact .takenBack hmandatory.1 (Function.update_self _ _ _)
        (releaseDomainMembers_none engines id st₁.hooks st₁.world)
    · -- the hook is optional, or the gate was shut
      rename_i hspared
      refine .settled (congrFun hflags id) hget hhooks fun _ ↦
        .inr ⟨hanalyzed, fun h ↦ absurd h hne, fun hrole _ hopen ↦ ?_⟩
      exact hspared ⟨hopen.1, hrequires, (congrArg HookSpec.role hspec).trans hrole⟩
  · obtain ⟨hfailed, hkept⟩ := failDomain_other engines domains gateOk st₁ (hspec ▸ hown)
    refine .kept (hfailed.trans (congrFun hflags id)) fun i member member' hmember hmember' hdomain ↦
      hkept i member member' ?_ hmember' hdomain
    rw [hhooks, List.getElem?_set_ne, hmember]
    rintro rfl
    cases hget.symm.trans hmember
    exact hown hdomain

/-- A wave is made of hooks outside of every domain. -/
theorem prepareGroupCount_undomained {generation : Nat} {hooks : List Hook} {start : Nat}
    (h : 1 < prepareGroupCount engines generation hooks start) :
    ∀ hook ∈ (hooks.drop start).take (prepareGroupCount engines generation hooks start),
      hook.spec.domain = none := by
  obtain ⟨first, rest, htake, -, hnone, hrest⟩ := prepareGroupCount_spec h
  rw [htake]
  intro hook hmem
  rcases List.mem_cons.mp hmem with rfl | hmem
  · exact hnone
  · have hjoins := hrest hook hmem
    simp only [joinsPrepareWave, Bool.and_eq_true, Option.isNone_iff_eq_none] at hjoins
    exact hjoins.1.1.2

theorem recordPrepareAttempt_domainFailed (index : Nat) (result : PrepareResult) (hook : Hook)
    (diag : PrepareDiag) (out : HookResult) (st : PrepareState ε) :
    (recordPrepareAttempt engines [] gateOk index result hook diag out st).domainFailed =
      st.domainFailed := by
  rw [recordPrepareAttempt]
  dsimp only
  split
  · rw [failDomain_nil]
  · rfl

/-- Recording a wave touches its members only. -/
theorem recordPrepareGroup_outside (answer : PrepareGroupAnswer) (index : Nat)
    (outs : List HookResult) (offset : Nat) (st : PrepareState ε) :
    (recordPrepareGroup engines answer index outs offset st).domainFailed = st.domainFailed ∧
      ∀ i, i < index + offset ∨ index + offset + outs.length ≤ i →
        (recordPrepareGroup engines answer index outs offset st).hooks[i]? = st.hooks[i]? := by
  induction outs generalizing offset st with
  | nil => exact ⟨rfl, fun _ _ ↦ rfl⟩
  | cons out outs ih =>
    rw [recordPrepareGroup]
    split
    · exact ⟨rfl, fun _ _ ↦ rfl⟩
    · dsimp only
      rw [List.length_cons]
      refine ⟨((ih _ _).1.trans (recordPrepareAttempt_domainFailed engines _ _ _ _ _ _)), ?_⟩
      intro i hi
      rw [(ih _ _).2 i (by omega)]
      obtain ⟨hook', heq, -⟩ := recordPrepareAttempt_hooks engines (fun _ ↦ true)
        (index + offset) _ _ _ out _
      rw [heq, List.getElem?_set_ne (by omega)]

/-- A wave passes the domains by. -/
theorem prepareGroup_domain (runtime : RuntimeId) {count : Nat}
    (hidle : ∀ hook ∈ (st.hooks.drop st.index).take count, hook.preparedState = 0)
    (hundomained : ∀ hook ∈ (st.hooks.drop st.index).take count, hook.spec.domain = none) :
    DomainPass gateOk id st (prepareGroup engines runtime count st).state := by
  have hsame : OfDomain id (fun hook hook' ↦ hook' = hook) st.hooks st.hooks :=
    fun i hook hook' hget hget' _ ↦ Option.some.inj (hget'.symm.trans hget)
  rw [prepareGroup_idle engines runtime count hidle]
  generalize st.world.alloc = allocated
  obtain ⟨ok, w⟩ := allocated
  cases ok with
  | false => exact .kept rfl hsame
  | true =>
    dsimp only [Flow.state_next]
    generalize callPrepareGroup engines ((st.hooks.drop st.index).take count)
      (logPrepareCalls runtime ((st.hooks.drop st.index).take count) w) = called
    obtain ⟨answer, w₁⟩ := called
    obtain ⟨hfailed, houtside⟩ := recordPrepareGroup_outside engines answer st.index
      (((st.hooks.drop st.index).take count).map Hook.result) 0
      { st with world := w₁, attempted := st.attempted + count }
    refine .kept (congrFun hfailed id) fun i hook hook' hget hget' hdomain ↦ ?_
    rw [houtside i ?_] at hget'
    · exact Option.some.inj (hget'.symm.trans hget)
    · -- a member of the wave has no domain
      by_contra hinside
      simp only [List.length_map, List.length_take, List.length_drop] at hinside
      refine absurd (hundomained hook (List.mem_of_getElem? (i := i - st.index) ?_))
        (by rw [hdomain]; simp)
      rw [List.getElem?_take_of_lt (by omega), List.getElem?_drop, ← hget]
      congr 1
      omega

/-- A hook that is prepared by itself. -/
theorem prepareSingle_domain (runtime : RuntimeId) (st : PrepareState ε)
    (hfind : domains.find? (fun d ↦ d.domainId = id) = some domain)
    (hrequires : domain.spec.requireAllMandatoryPrepared = true)
    (hget : st.hooks[st.index]? = some hook) (hanalyzed : hook.result.outcome = .analyzed)
    (hopen : gateBlocked domains gateOk st.domainFailed hook = false) :
    DomainPass gateOk id st (prepareSingle engines runtime domains gateOk hook st) := by
  rw [prepareSingle]
  have htouched₁ := releasePrepared_touched engines hook st.world
  generalize releasePrepared engines hook st.world = released at htouched₁ ⊢
  obtain ⟨hook₁, w₁⟩ := released
  have htouched₂ := dispatchPrepare_touched engines .single runtime hook₁ w₁
  dsimp only at htouched₁ ⊢
  generalize dispatchPrepare engines .single runtime hook₁ w₁ = dispatched at htouched₂ ⊢
  obtain ⟨result, hook₂, diag, w₂⟩ := dispatched
  obtain ⟨result', hook', w', hprepares, houtcome, -, heq⟩ := recordPrepareAttempt_cases engines
    domains gateOk st.index result diag hook.result { st with world := w₂ }
    (List.mem_singleton_self hook.hookId) (htouched₁.trans htouched₂) hanalyzed ⟨rfl, rfl⟩
  rw [heq]
  split
  · rename_i hfailed
    refine failDomain_pass engines hfind hrequires hget hanalyzed hprepares.spec ?_ rfl rfl
    rw [houtcome, preparedOutcome_isPrepareFailure]
    exact hfailed
  · rename_i hnot
    refine .settled rfl hget rfl fun hdomain ↦ .inr ⟨hanalyzed, fun _ ↦ ?_, fun _ hfails ↦ ?_⟩
    · rw [gateBlocked, domainOf_of_find hfind hdomain] at hopen
      simpa [PrepareState.Open, domainId_of_find hfind] using hopen
    · rw [houtcome, preparedOutcome_isPrepareFailure] at hfails
      exact absurd hfails hnot

/-- A hook that is stale. -/
theorem prepareStale_domain (hfind : domains.find? (fun d ↦ d.domainId = id) = some domain)
    (hrequires : domain.spec.requireAllMandatoryPrepared = true)
    (hget : st.hooks[st.index]? = some hook) (hanalyzed : hook.result.outcome = .analyzed) :
    DomainPass gateOk id st (prepareStale engines domains gateOk hook st) :=
  failDomain_pass engines hfind hrequires hget hanalyzed rfl rfl rfl rfl

/-- **One pass of the loop, seen from one domain** whose members are required. -/
theorem prepareIter_domain (runtime : RuntimeId)
    (hfind : domains.find? (fun d ↦ d.domainId = id) = some domain)
    (hrequires : domain.spec.requireAllMandatoryPrepared = true)
    (hidle : ∀ hook ∈ st.hooks, hook.Idle) :
    DomainPass gateOk id st (prepareIter engines runtime domains gateOk st).state := by
  have hsame : OfDomain id (fun hook hook' ↦ hook' = hook) st.hooks st.hooks :=
    fun i hook hook' hget hget' _ ↦ Option.some.inj (hget'.symm.trans hget)
  rw [prepareIter]
  split
  · exact .kept rfl hsame
  rename_i hook hget
  split
  · exact .kept rfl hsame
  rename_i hanalyzed
  rw [not_not] at hanalyzed
  dsimp only
  split
  · rename_i hcount
    exact prepareGroup_domain engines runtime (prepareGroupCount_idle hidle hcount)
      (prepareGroupCount_undomained engines hcount)
  split
  · exact (prepareStale_domain engines hfind hrequires hget hanalyzed).counted _
  split
  · rename_i hblocked
    refine .settled rfl hget rfl fun hdomain ↦
      .inr ⟨hanalyzed, fun h ↦ absurd h (by simp), fun _ _ hopen ↦ ?_⟩
    rw [gateBlocked, domainOf_of_find hfind hdomain] at hblocked
    simp [domainId_of_find hfind, hopen.1, hopen.2] at hblocked
  · rename_i hopen
    exact (prepareSingle_domain engines runtime { st with attempted := st.attempted + 1 } hfind
      hrequires hget hanalyzed (Bool.of_not_eq_true hopen)).counted _

end Pass

/-! ## A call -/

/-- A mandatory member of the domain has failed its preparation. -/
def MandatoryFailed (id : Id) (hooks : List Hook) : Prop :=
  ∃ hook ∈ hooks, hook.spec.domain = some id ∧ hook.spec.role = .mandatory ∧
    hook.result.outcome.isPrepareFailure = true

/-- Every mandatory member is prepared, or waits for its target. -/
def MandatorySettled (id : Id) (hooks : List Hook) : Prop :=
  ∀ hook ∈ hooks, hook.spec.domain = some id → hook.spec.role = .mandatory →
    hook.result.outcome = .prepared ∨ hook.result.outcome = .pending

/-- What the passes keep: either the gate is open, and the members are taken back when a mandatory
one fails; or it is shut, and then nobody is prepared who was not.  The call began with `hooks`. -/
inductive PrepareState.Gated (gateOk : Id → Bool) (id : Id) (hooks : List Hook)
    (st : PrepareState ε) : Prop where
  | opened (hgate : gateOk id = true)
      (hnone : st.domainFailed id = true → NonePrepared id st.hooks)
      (hfailed : MandatoryFailed id st.hooks → st.domainFailed id = true)
  | shut (hgate : gateOk id = false) (hnone : NonePrepared id st.hooks)
  /-- Everything was prepared by an earlier call. -/
  | settled (hgate : gateOk id = false) (hbefore : MandatorySettled id hooks)
      (hsettled : MandatorySettled id st.hooks)

section Call

variable {engines} {gateOk : Id → Bool} {id : Id} {st st' : PrepareState ε} {hooks : List Hook}

/-- A member was one before. -/
theorem OfDomain.member {R : Hook → Hook → Prop} {hooks hooks' : List Hook}
    (h : OfDomain id R hooks hooks') (hprepares : List.Forall₂ (Hook.Prepares engines) hooks hooks')
    {hook' : Hook} (hmem' : hook' ∈ hooks') (hdomain' : hook'.spec.domain = some id) :
    ∃ hook ∈ hooks, hook.spec.domain = some id ∧ hook'.spec.role = hook.spec.role ∧
      R hook hook' := by
  obtain ⟨i, hget'⟩ := List.getElem?_of_mem hmem'
  obtain ⟨hook, hget, hprepare⟩ := Pointwise.getElem?_right hprepares hget'
  rw [hprepare.spec] at hdomain'
  exact ⟨hook, List.mem_of_getElem? hget, hdomain', congrArg HookSpec.role hprepare.spec,
    h i hook hook' hget hget' hdomain'⟩

/-- While a domain is not open, nobody is prepared in it. -/
theorem OfDomain.nonePrepared {isOpen : Prop} {hooks hooks' : List Hook}
    (h : OfDomain id (Hook.Judged isOpen) hooks hooks')
    (hprepares : List.Forall₂ (Hook.Prepares engines) hooks hooks') (hshut : ¬isOpen)
    (hnone : NonePrepared id hooks) : NonePrepared id hooks' := by
  intro hook' hmem' hdomain'
  obtain ⟨hook, hmem, hdomain, -, rfl | ⟨-, hopen, -⟩⟩ := h.member hprepares hmem' hdomain'
  · exact hnone _ hmem hdomain
  · exact fun hprepared ↦ hshut (hopen hprepared)

/-- **A pass keeps the gate.** -/
theorem DomainPass.gated (h : DomainPass gateOk id st st')
    (hprepares : List.Forall₂ (Hook.Prepares engines) st.hooks st'.hooks)
    (hst : st.Gated gateOk id hooks) : st'.Gated gateOk id hooks := by
  cases h with
  | takenBack hgate hfailed hnone => exact .opened hgate (fun _ ↦ hnone) fun _ ↦ hfailed
  | judged hflag hmembers =>
    cases hst with
    | opened hgate hnone hfailed =>
      refine .opened hgate (fun hafter ↦ ?_) ?_
      · rw [hflag] at hafter
        refine hmembers.nonePrepared hprepares (fun hopen ↦ ?_) (hnone hafter)
        exact absurd (hafter.symm.trans hopen.2) (by simp)
      · rintro ⟨hook', hmem', hdomain', hrole', hfails⟩
        rw [hflag]
        obtain ⟨hook, hmem, hdomain, hrole, rfl | ⟨-, -, hshut⟩⟩ :=
          hmembers.member hprepares hmem' hdomain'
        · exact hfailed ⟨_, hmem, hdomain, hrole', hfails⟩
        · exact Bool.of_not_eq_false fun hflag ↦ hshut (hrole.symm.trans hrole') hfails ⟨hgate, hflag⟩
    | shut hgate hnone =>
      refine .shut hgate (hmembers.nonePrepared hprepares (fun hopen ↦ ?_) hnone)
      exact absurd (hgate.symm.trans hopen.1) (by simp)
    | settled hgate hbefore hsettled =>
      refine .settled hgate hbefore fun hook' hmem' hdomain' hrole' ↦ ?_
      obtain ⟨hook, hmem, hdomain, hrole, hjudged⟩ := hmembers.member hprepares hmem' hdomain'
      have hhook := hsettled hook hmem hdomain (hrole.symm.trans hrole')
      rcases hjudged with rfl | ⟨hanalyzed, -⟩
      · exact hhook
      · rw [hanalyzed] at hhook
        simp at hhook

variable {plan : Plan}

/-- The domain requires that all its mandatory members are prepared. -/
def Plan.RequiresAll (plan : Plan) (id : Id) : Prop :=
  ∃ domain ∈ plan.domains.find? fun d ↦ d.domainId = id,
    domain.spec.requireAllMandatoryPrepared = true

/-- No earlier call has left a member prepared while a mandatory one is missing: the gate is open,
or no member is prepared, or every mandatory one is settled. -/
def Plan.Settled (plan : Plan) (id : Id) : Prop :=
  domainGateOk plan id = true ∨ NonePrepared id plan.hooks ∨ MandatorySettled id plan.hooks

/-- A mandatory member has no route when the call begins, or had failed before, or the call leaves
it failed or stale.  One whose target need not be there is satisfied, and not missing. -/
def MandatoryMissing (id : Id) (hooks hooks' : List Hook) : Prop :=
  (∃ hook ∈ hooks, hook.spec.domain = some id ∧ hook.spec.role = .mandatory ∧
    hook.result.outcome ≠ .analyzed ∧ hook.result.outcome ≠ .prepared ∧
      hook.result.outcome ≠ .pending) ∨
  MandatoryFailed id hooks'

/-- **The boundary in a preparation.**  When a mandatory member of a domain is missing, no member
of the domain is prepared after the call, or keeps what its engine has prepared. -/
def PrepareBoundary (engines : EngineRef → Engine ε) (plan : Plan) (w : World ε) : Prop :=
  plan.state = .analyzed → ∀ id, plan.RequiresAll id →
    MandatoryMissing id plan.hooks (preparePlan engines plan w).2.1.hooks →
      ∀ hook ∈ (preparePlan engines plan w).2.1.hooks, hook.spec.domain = some id →
        hook.result.outcome ≠ .prepared ∧ hook.preparedState = 0

/-- While the gate is open, every mandatory member has a route. -/
theorem domainGateOk_analyzed (hrequires : plan.RequiresAll id)
    (hgate : domainGateOk plan id = true) {hook : Hook} (hmem : hook ∈ plan.hooks)
    (hdomain : hook.spec.domain = some id) (hrole : hook.spec.role = .mandatory) :
    hook.result.outcome = .analyzed := by
  obtain ⟨domain, hfind, hrequires⟩ := hrequires
  rw [domainGateOk, hfind, Option.any_some, mandatoryGateSatisfied, hrequires, Bool.not_true,
    Bool.false_or, List.all_eq_true] at hgate
  have hhook := hgate hook hmem
  rw [domainId_of_find hfind] at hhook
  simpa [hdomain, hrole] using hhook

/-- How a loop begins. -/
theorem Plan.Settled.gated (h : plan.Settled id) (hrequires : plan.RequiresAll id) (w : World ε) :
    (PrepareState.start plan.hooks w).Gated (domainGateOk plan) id plan.hooks := by
  cases hgate : domainGateOk plan id with
  | true =>
    refine .opened hgate (fun h ↦ absurd h (by simp [PrepareState.start])) ?_
    rintro ⟨hook, hmem, hdomain, hrole, hfails⟩
    rw [domainGateOk_analyzed hrequires hgate hmem hdomain hrole] at hfails
    cases hfails
  | false =>
    rcases h with h | h | h
    · rw [hgate] at h
      cases h
    · exact .shut hgate h
    · exact .settled hgate h h

/-- What the gate says when the loop is over. -/
theorem PrepareState.Gated.nonePrepared (hst : st.Gated (domainGateOk plan) id plan.hooks)
    (hrequires : plan.RequiresAll id)
    (hmissing : MandatoryMissing id plan.hooks st.hooks) : NonePrepared id st.hooks := by
  cases hst with
  | opened hgate hnone hfailed =>
    refine hnone (hfailed (hmissing.resolve_left ?_))
    rintro ⟨hook, hmem, hdomain, hrole, hne, -⟩
    exact hne (domainGateOk_analyzed hrequires hgate hmem hdomain hrole)
  | shut hgate hnone => exact hnone
  | settled hgate hbefore hsettled =>
    -- nobody was missing before, and nobody has failed
    rcases hmissing with ⟨hook, hmem, hdomain, hrole, -, hprepared, hpending⟩ |
      ⟨hook, hmem, hdomain, hrole, hfails⟩
    · rcases hbefore hook hmem hdomain hrole with h | h
      · exact absurd h hprepared
      · exact absurd h hpending
    · rcases hsettled hook hmem hdomain hrole with h | h <;> rw [h] at hfails <;> cases hfails

/-- The gate is kept by the loop. -/
theorem prepareLoop_gated (hidle : ∀ hook ∈ plan.hooks, hook.Idle)
    (hrequires : plan.RequiresAll id) (hsettled : plan.Settled id) (w : World ε) :
    (prepareLoop engines plan w).state.Gated (domainGateOk plan) id plan.hooks := by
  have hstart := hsettled.gated hrequires w
  obtain ⟨domain, hfind, hrequires⟩ := hrequires
  refine (run_invariant (fun st : PrepareState ε ↦ (∀ hook ∈ st.hooks, hook.Idle) ∧
    st.Gated (domainGateOk plan) id plan.hooks) ?_ plan.hooks.length ⟨hidle, hstart⟩).2
  rintro st - ⟨hidle, hst⟩
  have hmoves := prepareIter_moves engines plan.runtime plan.domains (domainGateOk plan)
    fun h (hh : h ∈ st.hooks) ↦ List.mem_map_of_mem hh
  exact ⟨prepareIter_idle engines plan.runtime plan.domains (domainGateOk plan) hidle,
    (prepareIter_domain engines plan.runtime hfind hrequires hidle).gated hmoves.hooks hst⟩

/-- The hooks a call leaves are those of its loop, if it came to that. -/
theorem preparePlan_hooks (engines : EngineRef → Engine ε) (plan : Plan) (w : World ε) :
    (preparePlan engines plan w).2.1.hooks = plan.hooks ∨
      ∃ w₁, (preparePlan engines plan w).2.1.hooks = (prepareLoop engines plan w₁).state.hooks := by
  rw [preparePlan]
  split
  · exact .inl rfl
  generalize allocPrepare plan w = allocated
  obtain ⟨ok, w₁⟩ := allocated
  cases ok with
  | false => exact .inl rfl
  | true =>
    refine .inr ⟨w₁, ?_⟩
    dsimp only
    cases prepareLoop engines plan w₁ with
    | stop st => rfl
    | next st =>
      dsimp only [Flow.state_next]
      generalize createReport plan.hooks.length st.world = report
      obtain ⟨ok, w₂⟩ := report
      cases ok <;> rfl

/-- **The boundary is kept by a preparation** that comes to no domain in which an earlier one has
left a member prepared while a mandatory one is missing. -/
theorem preparePlan_boundary (hidle : plan.state = .analyzed → ∀ hook ∈ plan.hooks, hook.Idle)
    (hsettled : plan.state = .analyzed → ∀ id, plan.RequiresAll id → plan.Settled id)
    (w : World ε) : PrepareBoundary engines plan w := by
  intro hstate id hrequires hmissing hook hmem hdomain
  have hnone : NonePrepared id (preparePlan engines plan w).2.1.hooks := by
    rcases preparePlan_hooks engines plan w with hhooks | ⟨w₁, hhooks⟩ <;>
      rw [hhooks] at hmissing ⊢
    · exact ((hsettled hstate id hrequires).gated hrequires w).nonePrepared hrequires hmissing
    · exact (prepareLoop_gated (hidle hstate) hrequires (hsettled hstate id hrequires)
        w₁).nonePrepared hrequires hmissing
  have hne := hnone hook hmem hdomain
  obtain ⟨-, hooks, state, hplan, hprepares, -⟩ := preparePlan_spec engines plan w
  rw [hplan] at hmem
  obtain ⟨hook₀, hmem₀, hprepare⟩ := Pointwise.mem_right hprepares hmem
  exact ⟨hne, hprepare.idle (hidle hstate hook₀ hmem₀) hne⟩

end Call

end HookKit
