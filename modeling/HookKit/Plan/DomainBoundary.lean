import HookKit.Plan.Attempts
import HookKit.Plan.CommitCounts
import HookKit.Plan.DomainGate

/-!
# The boundary of a domain

A failure domain is committed as a whole or not at all: its mandatory members are looked at once,
when the commit order first comes to a member, and a preparation in which one of them is missing
takes the others back.

* `FirstVisit`, `MembersReady` — where the boundary is, and what has to hold there.
* `commitPlan_boundary` — a commit hands over no member of a domain that was not ready there.
* `System.domainBoundary_run` — both halves, in a run that repeats no preparation in vain.
* `System.prepared_beside_stale` — a preparation that is repeated leaves a member prepared.
-/

set_option autoImplicit false

namespace HookKit

open Loop Trace

variable {ε : Type} (engines : EngineRef → Engine ε)

/-! ## The boundary -/

/-- The domain of the hook at an index. -/
def domainAt (hooks : List Hook) (index : Nat) : Option Id :=
  hooks[index]?.bind fun hook ↦ hook.spec.domain

/-- The commit order comes to a member of the domain for the first time. -/
structure FirstVisit (plan : CommitPlan) (st : CommitState ε) (domain : Id) : Prop where
  comes : ∃ index, plan.order[st.position]? = some index ∧ domainAt st.hooks index = some domain
  first : ∀ index ∈ plan.order.take st.position, domainAt st.hooks index ≠ some domain

/-- The dependencies of a member are active, or prepared and in the same domain. -/
def DependenciesReady (hooks : List Hook) (domain : Id) (hook : Hook) : Prop :=
  ∀ id ∈ hook.spec.after, ∃ dependency ∈ findHook hooks id,
    dependency.result.outcome = .active ∨
      dependency.spec.domain = some domain ∧ dependency.result.outcome = .prepared

/-- Every mandatory member of the domain is prepared, current, and has its dependencies ready. -/
def MembersReady (plan : CommitPlan) (st : CommitState ε) (domain : Id) : Prop :=
  ∀ hook ∈ st.hooks, hook.spec.domain = some domain → hook.spec.role = .mandatory →
    hook.result.outcome = .prepared ∧
      hook.result.imageGeneration = st.world.env.generation plan.runtime ∧
      DependenciesReady st.hooks domain hook

theorem dependencyReadyForDomain_iff {hooks : List Hook} {domain : Id} {hook : Hook} :
    dependencyReadyForDomain hooks domain hook = true ↔ DependenciesReady hooks domain hook := by
  simp [dependencyReadyForDomain, DependenciesReady, Option.any_eq_true]

/-- What the preflight checks. -/
theorem domainCommitPreflight_iff {plan : CommitPlan} {st : CommitState ε} {domain : Id} :
    domainCommitPreflight (st.world.env.generation plan.runtime) st.hooks domain = true ↔
      MembersReady plan st domain := by
  rw [domainCommitPreflight, List.all_eq_true]
  refine forall₂_congr fun hook _ ↦ ?_
  rw [← dependencyReadyForDomain_iff]
  simp only [Bool.or_eq_true, Bool.not_eq_true', Bool.and_eq_false_iff, Bool.and_eq_true,
    decide_eq_false_iff_not, decide_eq_true_eq, ← imp_iff_not_or]
  tauto

/-! ## Passes of a commit -/

section Commit

variable {plan : CommitPlan} {st st' : CommitState ε} {Entered : Id → Prop} {index : Nat}
  {hook : Hook} {domain : Id}

theorem domainAt_of_get (hget : st.hooks[index]? = some hook) :
    domainAt st.hooks index = hook.spec.domain := by
  rw [domainAt, hget]
  rfl

/-- A pass leaves every hook in its domain. -/
theorem domainAt_commits {hooks hooks' : List Hook} (h : List.Forall₂ Hook.Commits hooks hooks')
    (index : Nat) : domainAt hooks' index = domainAt hooks index := by
  have hmap : (hooks'.map Hook.spec)[index]? = (hooks.map Hook.spec)[index]? :=
    congrArg (·[index]?) (Pointwise.map_eq h Hook.spec fun _ _ h ↦ h.spec)
  simp only [List.getElem?_map] at hmap
  have hdomains := congrArg (·.bind HookSpec.domain) hmap
  simpa [domainAt, Option.bind_map] using hdomains

/-- What holds of the domains when a pass begins: one that was come to was entered or has no
prepared member left, and no other one was touched. -/
structure CommitState.Bounded (plan : CommitPlan) (Entered : Id → Prop) (st : CommitState ε) :
    Prop where
  entered : ∀ index ∈ plan.order.take st.position, ∀ domain, domainAt st.hooks index = some domain →
    Entered domain ∨
      ∀ hook ∈ st.hooks, hook.spec.domain = some domain → hook.result.outcome ≠ .prepared
  waiting : ∀ index ∈ plan.order.drop st.position, ∀ hook, st.hooks[index]? = some hook →
    hook.result.outcome = .prepared ∨
      ∃ other ∈ plan.order.take st.position, hook.spec.domain ≠ none ∧
        domainAt st.hooks other = hook.spec.domain

/-- A pass over `n` positions keeps the boundary, if it does so for the domains it comes to. -/
theorem CommitState.Bounded.pass (h : st.Bounded plan Entered)
    (hcommits : List.Forall₂ Hook.Commits st.hooks st'.hooks) {n : Nat}
    (hposition : st'.position = st.position + n)
    (hpassed : ∀ index ∈ (plan.order.drop st.position).take n, ∀ domain,
      domainAt st.hooks index = some domain → Entered domain ∨
        ∀ hook ∈ st'.hooks, hook.spec.domain = some domain → hook.result.outcome ≠ .prepared)
    (hkept : ∀ index ∈ plan.order.drop (st.position + n), ∀ hook, st.hooks[index]? = some hook →
      hook.result.outcome = .prepared → st'.hooks[index]? = some hook ∨
        ∃ other ∈ (plan.order.drop st.position).take n, hook.spec.domain ≠ none ∧
          domainAt st.hooks other = hook.spec.domain) :
    st'.Bounded plan Entered := by
  have hdomains := domainAt_commits hcommits
  have htake : plan.order.take st'.position =
      plan.order.take st.position ++ (plan.order.drop st.position).take n := by
    rw [hposition, List.take_add]
  refine ⟨fun index hmem domain hdomain ↦ ?_, fun index hmem hook' hget' ↦ ?_⟩
  · rw [hdomains] at hdomain
    rw [htake, List.mem_append] at hmem
    rcases hmem with hmem | hmem
    · refine (h.entered index hmem domain hdomain).imp_right fun hnone hook' hmem' hdomain' ↦ ?_
      obtain ⟨hook, hmem, hcommit⟩ := Pointwise.mem_right hcommits hmem'
      rcases hcommit.outcome with rfl | ⟨-, hfinal⟩
      · exact hnone hook' hmem hdomain'
      · exact Outcome.ne_prepared_of_isFinal hfinal
    · exact hpassed index hmem domain hdomain
  · rw [hposition] at hmem
    obtain ⟨hook, hget, hcommit⟩ := Pointwise.getElem?_right hcommits hget'
    rw [hcommit.spec, htake]
    simp only [hdomains]
    have hbefore : index ∈ plan.order.drop st.position := by
      rw [← List.drop_drop] at hmem
      exact List.mem_of_mem_drop hmem
    rcases h.waiting index hbefore hook hget with hprepared | ⟨other, hother, hsame⟩
    · rcases hkept index hmem hook hget hprepared with hkept | ⟨other, hother, hsame⟩
      · cases hkept.symm.trans hget'
        exact .inl hprepared
      · exact .inr ⟨other, List.mem_append_right _ hother, hsame⟩
    · exact .inr ⟨other, List.mem_append_left _ hother, hsame⟩

/-- A pass that comes to no prepared hook goes on. -/
theorem commitIter_unreached (h : st.reached plan = none) :
    commitIter engines plan st = .next { st with position := st.position + 1 } := by
  rw [commitIter]
  split
  · rfl
  split
  · rfl
  split
  · rfl
  · rename_i horder _ hook hget hprepared
    rw [not_not] at hprepared
    have hvisits : ∃ index, Visits plan st index hook := ⟨_, horder, hget, hprepared⟩
    rw [← CommitState.reached_eq_some, h] at hvisits
    cases hvisits

/-- A pass that comes to a domain for the first time and finds it not ready refuses it. -/
theorem Visits.iter_refused (h : Visits plan st index hook) (hcount : ¬1 < st.waveCount engines plan)
    (hrefused : domainRefused plan hook st = some domain) :
    commitIter engines plan st =
      .next { refuseDomain engines plan domain st with position := st.position + 1 } := by
  rw [CommitState.waveCount] at hcount
  simp only [commitIter, h.order, h.get, h.prepared, hcount, hrefused, ne_eq, not_true_eq_false,
    if_false]
  rfl

theorem Visits.iter_single (h : Visits plan st index hook) (hcount : ¬1 < st.waveCount engines plan)
    (hallowed : domainRefused plan hook st = none) :
    commitIter engines plan st = .next { commitSingle engines plan index hook st with
      position := (commitSingle engines plan index hook st).position + 1 } := by
  rw [CommitState.waveCount] at hcount
  simp only [commitIter, h.order, h.get, h.prepared, hcount, hallowed, ne_eq, not_true_eq_false,
    if_false]

/-- A hook that is committed by itself is the only one that is touched and handed over. -/
theorem commitSingle_only (plan : CommitPlan) (index : Nat) (hook : Hook) (st : CommitState ε) :
    (commitSingle engines plan index hook st).position = st.position ∧
      (∃ hook', (commitSingle engines plan index hook st).hooks = st.hooks.set index hook') ∧
      st.world.Adds (fun e ↦ ∀ c, e = .commitCall c → c.hook = hook.hookId)
        (commitSingle engines plan index hook st).world := by
  rw [commitSingle]
  split
  · exact ⟨rfl, ⟨_, rfl⟩, (World.Adds.refl _).log (by simp)⟩
  dsimp only
  split
  · exact ⟨rfl, ⟨_, rfl⟩, (World.Adds.refl _).log (by simp)⟩
  · refine ⟨rfl, ⟨_, rfl⟩, ?_⟩
    obtain ⟨mid, required, published, hadds, hmid, -, -⟩ := (commitOneHook_spec engines .single
      plan.runtime plan.planId plan.ownerId hook.preparedContinuation hook hook.result st.ledger
      st.world).world
    dsimp only [CommitState.settled_world]
    rw [hmid]
    refine (hadds.mono ?_).log (by simp)
    rintro e ⟨rfl, -⟩ c ⟨⟩
    rfl

theorem domainRefused_domain (h : domainRefused plan hook st = some domain) :
    hook.spec.domain = some domain := by
  rw [domainRefused] at h
  split at h
  · cases h
  · rename_i hdomain
    split at h
    · cases h
      exact hdomain
    · cases h

theorem domainSeen_iff (hdomain : hook.spec.domain = some domain) :
    domainSeen plan st.hooks st.position hook = true ↔
      ∃ other ∈ plan.order.take st.position, domainAt st.hooks other = some domain := by
  simp [domainSeen, hooksAt, domainAt, hdomain, Option.bind_eq_some_iff]
  grind

/-- A hook of a domain that is not refused comes behind the boundary, or is at it. -/
theorem Visits.allowed (h : Visits plan st index hook) (hst : st.Bounded plan Entered)
    (hallowed : domainRefused plan hook st = none) (hdomain : hook.spec.domain = some domain)
    (hE : FirstVisit plan st domain → MembersReady plan st domain → Entered domain) :
    Entered domain := by
  rw [domainRefused, hdomain] at hallowed
  by_cases hseen : domainSeen plan st.hooks st.position hook = true
  · obtain ⟨other, hother, hsame⟩ := (domainSeen_iff hdomain).mp hseen
    refine (hst.entered other hother domain hsame).resolve_right fun hnone ↦ ?_
    exact hnone hook (List.mem_of_getElem? h.get) hdomain h.prepared
  · have hready := domainCommitPreflight_iff.mp (by simpa [hseen] using hallowed)
    refine hE ⟨⟨index, h.order, (domainAt_of_get h.get).trans hdomain⟩, fun other hother hsame ↦ ?_⟩
      hready
    exact hseen ((domainSeen_iff hdomain).mpr ⟨other, hother, hsame⟩)

/-- Only members of entered domains are handed over. -/
def Event.Enters (hooks : List Hook) (Entered : Id → Prop) (e : Event) : Prop :=
  ∀ c, e = .commitCall c → ∃ hook ∈ hooks, c.hook = hook.hookId ∧
    ∀ domain, hook.spec.domain = some domain → Entered domain

/-- The way through a wave: nobody in it has a domain. -/
theorem Visits.wave_bounded (h : Visits plan st index hook)
    (hvalid : ∀ i ∈ plan.order, i < st.hooks.length) (hnodup : plan.order.Nodup)
    (hcount : 1 < st.waveCount engines plan) (hst : st.Bounded plan Entered) :
    (commitIter engines plan st).state.Bounded plan Entered ∧
      st.world.Adds (Event.Enters st.hooks Entered) (commitIter engines plan st).state.world := by
  have hdrop : ∀ i ∈ plan.order.drop st.position, i < st.hooks.length :=
    fun i hi ↦ hvalid i (List.mem_of_mem_drop hi)
  obtain ⟨first, others, htake, -, hcommit, hmembers, -⟩ := commitGroupCount_spec hcount
  have hwave := (hooksAt_take hdrop (st.waveCount engines plan)).trans htake
  have hcommits := (commitIter_pass engines plan st hvalid).commits hvalid hnodup
  rw [h.iter engines hcount] at hcommits ⊢
  rcases commitGroup_cases engines plan _ st hwave hcommit with
    ⟨w, hquiet, heq⟩ | ⟨settled, ledger, w₁, w', hcommitted, heq⟩ <;> rw [heq] at hcommits ⊢
  · exact ⟨⟨hst.entered, hst.waiting⟩, hquiet.toAdds.mono fun _ ↦ False.elim⟩
  · refine ⟨hst.pass hcommits rfl (fun i hi domain hdomain ↦ ?_) fun i hi hook' hget _ ↦ .inl ?_, ?_⟩
    · -- the positions of the wave
      obtain ⟨member, hget, hdomain⟩ := Option.bind_eq_some_iff.mp hdomain
      have hmem : member ∈ first :: others := by
        rw [← hwave, hooksAt]
        exact List.mem_filterMap.mpr ⟨i, hi, hget⟩
      rw [(hmembers member hmem).2.1] at hdomain
      cases hdomain
    · refine (writeBack_getElem? fun hmem ↦ ?_).trans hget
      rw [← List.drop_drop] at hi
      exact (List.disjoint_take_drop (hnodup.sublist (List.drop_sublist _ _)) le_rfl) hmem hi
    · refine hcommitted.world.mono ?_
      rintro e (⟨member, hmem, rfl⟩ | ⟨_, _, rfl⟩ | ⟨_, _, _, _, _, _, rfl⟩) c hc <;> cases hc
      refine ⟨member, hooksAt_mem (hwave ▸ hmem), rfl, fun domain hdomain ↦ ?_⟩
      rw [(hmembers member hmem).2.1] at hdomain
      cases hdomain

/-- **One pass keeps the boundary**, and hands over no member of a domain that was not entered. -/
theorem commitIter_bounded (hvalid : ∀ i ∈ plan.order, i < st.hooks.length)
    (hnodup : plan.order.Nodup) (hst : st.Bounded plan Entered)
    (hE : ∀ domain, FirstVisit plan st domain → MembersReady plan st domain → Entered domain) :
    (commitIter engines plan st).state.Bounded plan Entered ∧
      st.world.Adds (Event.Enters st.hooks Entered) (commitIter engines plan st).state.world := by
  have hcommits := (commitIter_pass engines plan st hvalid).commits hvalid hnodup
  cases hreached : st.reached plan with
  | none =>
    have hiter := commitIter_unreached engines hreached
    rw [hiter] at hcommits ⊢
    refine ⟨hst.pass hcommits rfl (fun i hi domain hdomain ↦ ?_) fun i _ hook hget _ ↦ .inl hget,
      .refl _⟩
    obtain ⟨hook, hget, hdomain'⟩ := Option.bind_eq_some_iff.mp hdomain
    have horder : plan.order[st.position]? = some i := by
      rw [List.take_one, List.head?_drop] at hi
      exact Option.mem_toList.mp hi
    rcases hst.waiting i (List.mem_of_mem_take hi) hook hget with
      hprepared | ⟨other, hother, -, hsame⟩
    · have hvisits := CommitState.reached_eq_some.mpr ⟨i, horder, hget, hprepared⟩
      rw [hreached] at hvisits
      cases hvisits
    · exact hst.entered other hother domain (hsame.trans hdomain')
  | some hook =>
    obtain ⟨index, hvisits⟩ := CommitState.reached_eq_some.mp hreached
    by_cases hcount : 1 < st.waveCount engines plan
    · exact hvisits.wave_bounded engines hvalid hnodup hcount hst
    have hone : ∀ i ∈ (plan.order.drop st.position).take 1, i = index := fun i hi ↦ by
      rw [List.take_one, List.head?_drop, hvisits.order] at hi
      simpa using hi
    cases hrefused : domainRefused plan hook st with
    | some domain =>
      have hdomain := domainRefused_domain hrefused
      obtain ⟨hmarked, hworld, -⟩ := markDomainCommitPreflightFailed_spec engines
        (st.world.env.generation plan.runtime) domain st.hooks st.world
      rw [hvisits.iter_refused engines hcount hrefused] at hcommits ⊢
      refine ⟨hst.pass hcommits rfl (fun i hi domain' hdomain' ↦ .inr fun member' hmem' hsame ↦ ?_)
        (fun i _ member hget hprepared ↦ ?_), hworld.toAdds.mono ?_⟩
      · cases hone i hi
        rw [domainAt_of_get hvisits.get, hdomain] at hdomain'
        cases hdomain'
        obtain ⟨member, -, hcommit, hnone, -⟩ := Pointwise.mem_right hmarked hmem'
        exact hnone (hcommit.spec ▸ hsame)
      · by_cases hsame : member.spec.domain = some domain
        · refine .inr ⟨index, ?_, by rw [hsame]; simp, ?_⟩
          · rw [List.take_one, List.head?_drop, hvisits.order]
            exact List.mem_singleton_self index
          · rw [domainAt_of_get hvisits.get, hdomain, hsame]
        · refine .inl ?_
          show (markDomainCommitPreflightFailed engines _ domain st.hooks st.world).1[i]? = _
          rw [markDomainCommitPreflightFailed_hooks, List.getElem?_map, hget, Option.map_some,
            if_neg fun h ↦ hsame h.1]
      · rintro e ⟨-, hnot⟩ c rfl
        exact hnot.elim
    | none =>
      obtain ⟨hposition, ⟨hook', hhooks⟩, hworld⟩ := commitSingle_only engines plan index hook st
      have hentered : ∀ domain, hook.spec.domain = some domain → Entered domain :=
        fun domain hdomain ↦ hvisits.allowed hst hrefused hdomain (hE domain)
      rw [hvisits.iter_single engines hcount hrefused] at hcommits ⊢
      refine ⟨hst.pass hcommits (congrArg (· + 1) hposition) (fun i hi domain hdomain ↦ .inl ?_)
        (fun i hi member hget _ ↦ .inl ?_), hworld.mono ?_⟩
      · cases hone i hi
        exact hentered domain ((domainAt_of_get hvisits.get).symm.trans hdomain)
      · -- the order comes to no index twice
        have hne : index ≠ i := by
          rintro rfl
          obtain ⟨hlt, heq⟩ := List.getElem?_eq_some_iff.mp hvisits.order
          have hlater := hnodup.sublist (List.drop_sublist st.position _)
          rw [List.drop_eq_getElem_cons hlt, heq] at hlater
          exact (List.nodup_cons.mp hlater).1 hi
        exact (congrArg (·[i]?) hhooks).trans ((List.getElem?_set_ne hne).trans hget)
      · rintro e he c rfl
        exact ⟨hook, List.mem_of_getElem? hvisits.get, he c rfl, hentered⟩

end Commit

/-! ## A commit -/

/-- The call comes to the domain, and all its mandatory members are ready there. -/
def DomainEntered (runtime : Runtime) (plan : Plan) (w : World ε) (domain : Id) : Prop :=
  ∃ pass ∈ commitPasses engines runtime plan w,
    FirstVisit pass.1 pass.2 domain ∧ MembersReady pass.1 pass.2 domain

/-- **The boundary in a commit.**  No member of a domain is handed to its engine unless every
mandatory member was ready when the call first came to the domain. -/
def CommitBoundary (runtime : Runtime) (plan : Plan) (w : World ε) : Prop :=
  w.Adds (fun e ↦ ∀ c, e = .commitCall c → ∀ hook ∈ plan.hooks, c.hook = hook.hookId →
    ∀ domain, hook.spec.domain = some domain → DomainEntered engines runtime plan w domain)
    (commitPlan engines runtime plan w).2.2.2

theorem commitPlan_boundary (runtime : Runtime) {plan : Plan}
    (hids : (plan.hooks.map Hook.hookId).Nodup) (w : World ε) :
    CommitBoundary engines runtime plan w := by
  rcases commitPlan_cases engines runtime plan w with
    ⟨status, w', -, heq, hquiet⟩ | ⟨order, w₁, status, plan', runtime', w', heq, hran⟩
  · rw [CommitBoundary, heq]
    exact hquiet.toAdds.mono fun _ ↦ False.elim
  rw [CommitBoundary, heq]
  have hstart : (CommitState.start plan.hooks w₁).Bounded (plan.toCommit runtime order)
      (DomainEntered engines runtime plan w) := by
    refine ⟨fun i hi ↦ absurd hi List.not_mem_nil, fun i hi hook hget ↦ .inl ?_⟩
    obtain ⟨hook', hget', hprepared⟩ := hran.prepared i hi
    cases hget'.symm.trans hget
    exact hprepared
  have hloop : List.Forall₂ Hook.Commits plan.hooks
        (commitLoop engines (plan.toCommit runtime order) plan.hooks w₁).state.hooks ∧
      (commitLoop engines (plan.toCommit runtime order) plan.hooks w₁).state.Bounded
        (plan.toCommit runtime order) (DomainEntered engines runtime plan w) ∧
      w₁.Adds (Event.Enters plan.hooks (DomainEntered engines runtime plan w))
        (commitLoop engines (plan.toCommit runtime order) plan.hooks w₁).state.world := by
    refine run_invariant_visited (fun st : CommitState ε ↦
      List.Forall₂ Hook.Commits plan.hooks st.hooks ∧
        st.Bounded (plan.toCommit runtime order) (DomainEntered engines runtime plan w) ∧
        w₁.Adds (Event.Enters plan.hooks (DomainEntered engines runtime plan w)) st.world) _ ?_
      ⟨Pointwise.refl .refl _, hstart, .refl w₁⟩
    rintro st hmem ⟨hcommits, hst, hadds⟩
    have hvalid : ∀ i ∈ order, i < st.hooks.length :=
      fun i hi ↦ hcommits.length_eq ▸ (hran.prepared i hi).lt
    obtain ⟨hst', hadds'⟩ := commitIter_bounded engines hvalid hran.nodup hst
      fun domain hfirst hready ↦ ⟨(plan.toCommit runtime order, st),
        hran.passes ▸ List.mem_map_of_mem hmem, hfirst, hready⟩
    refine ⟨Pointwise.trans (fun _ _ _ ↦ .trans) hcommits
      ((commitIter_pass engines _ st hvalid).commits hvalid hran.nodup), hst',
      hadds.trans (hadds'.mono fun e he c hc ↦ ?_)⟩
    obtain ⟨hook', hmem', hid, hentered⟩ := he c hc
    obtain ⟨hook, hhook, hcommit⟩ := Pointwise.mem_right hcommits hmem'
    exact ⟨hook, hhook, hid.trans hcommit.hookId, fun domain hdomain ↦
      hentered domain (hcommit.spec ▸ hdomain)⟩
  refine ((hran.before.toAdds.mono fun _ ↦ False.elim).trans (hloop.2.2.mono ?_)).trans
    (hran.after.toAdds.mono fun _ ↦ False.elim)
  rintro e he c hc hook hmem hid domain hdomain
  obtain ⟨hook', hmem', hid', hentered⟩ := he c hc
  cases eq_of_hookId hids hmem hmem' (hid.symm.trans hid')
  exact hentered domain hdomain

/-! ## Runs -/

instance (id : Id) (hooks : List Hook) : Decidable (NonePrepared id hooks) :=
  inferInstanceAs (Decidable (∀ hook ∈ hooks, _ → _))

instance (id : Id) (hooks : List Hook) : Decidable (MandatorySettled id hooks) :=
  inferInstanceAs (Decidable (∀ hook ∈ hooks, _ → _ → _))

instance (plan : Plan) (id : Id) : Decidable (plan.RequiresAll id) :=
  inferInstanceAs (Decidable (∃ domain ∈ plan.domains.find? _, _))

instance (plan : Plan) (id : Id) : Decidable (plan.Settled id) :=
  inferInstanceAs (Decidable (_ ∨ _ ∨ _))

namespace System

variable {engines : EngineRef → Engine ε} {stripCode : Ptr → Ptr} {s : System ε} {slot : Nat}

/-- **The boundary of the domains**, in the calls that have one. -/
def DomainBoundary (engines : EngineRef → Engine ε) (s : System ε) : Op ε → Prop
  | .prepare slot => ∀ plan ∈ s.plans slot, PrepareBoundary engines plan s.world
  | .commit slot => ∀ plan ∈ s.plans slot,
    CommitBoundary engines (s.runtimes plan.runtime) plan s.world
  | _ => True

/-- A preparation comes to no domain in which an earlier one has left a member prepared while a
mandatory one is missing. -/
def DomainsSettled (s : System ε) : Op ε → Prop
  | .prepare slot => ∀ plan ∈ s.plans slot, plan.state = .analyzed → ∀ domain ∈ plan.domains,
    plan.RequiresAll domain.domainId → plan.Settled domain.domainId
  | _ => True

instance : ∀ (s : System ε) (op : Op ε), Decidable (s.DomainsSettled op)
  | s, .prepare slot => inferInstanceAs (Decidable (∀ plan ∈ s.plans slot, _ → _))
  | _, .createPlan .. | _, .defineDomain .. | _, .addHook .. | _, .analyze .. | _, .commit ..
  | _, .releasePlan .. | _, .drain .. | _, .releaseRuntime .. | _, .register .. | _, .outside .. =>
    inferInstanceAs (Decidable True)

theorem Sound.prepare_boundary (hs : s.Sound) (hop : s.DomainsSettled (.prepare slot)) {plan : Plan}
    (hplan : s.plans slot = some plan) : PrepareBoundary engines plan s.world := by
  refine preparePlan_boundary (fun hstate hook hmem ↦ ?_) (fun hstate id hrequires ↦ ?_) s.world
  · exact ((hs.plans slot plan hplan).uncommitted (.inr hstate) hook hmem).2
  · obtain ⟨domain, hfind, hall⟩ := hrequires
    have hid := domainId_of_find hfind
    have hsettled := hop plan hplan hstate domain (List.mem_of_find?_eq_some hfind)
    rw [hid] at hsettled
    exact hsettled ⟨domain, hfind, hall⟩

/-- **Every call of a run keeps the boundary of the domains**, if no preparation comes to a domain
in which an earlier one has left a member prepared while a mandatory one is missing. -/
theorem domainBoundary_run (engines : EngineRef → Engine ε) (stripCode : Ptr → Ptr) {s : System ε}
    (hstart : s.Initial) (ops : List (Op ε))
    (hmeets : Meets engines stripCode DomainsSettled s ops) :
    Meets engines stripCode (DomainBoundary engines) s ops := by
  refine hmeets.imp Sound (fun s op hs _ ↦ hs.stepped (step_stepped engines stripCode s op))
    (fun s op hs hop ↦ ?_) hstart.sound
  cases op with
  | prepare slot => exact fun plan hplan ↦ hs.prepare_boundary hop hplan
  | commit slot =>
    exact fun plan hplan ↦ commitPlan_boundary engines _ (hs.nodup_plan hplan) s.world
  | _ => trivial

end System

/-! ## A preparation that is repeated -/

/-- An engine that prepares waves, and everything else too. -/
def Engine.grouping : Engine Unit :=
  { Engine.transactional (fun _ ↦ .ok) Operation.same with
    prepareGroupCtx := some fun _ env ↦ (⟨true, fun _ ↦ ⟨.ok, 1, .zero⟩⟩, env) }

/-- A plan with a wave between the two mandatory members of a domain; `heap` tells which of the
allocations of its first preparation succeed. -/
def Op.hookDomain (heap : List Bool) : List (Op Unit) :=
  [.createPlan 0 0, .defineDomain 0 ⟨sizeofDomainSpec, some "domain", 0, true⟩,
    .addHook 0 { HookSpec.atAddress "first" 0x1000 1 with role := .mandatory, domain := some 2 },
    .addHook 0 (.atAddress "second" 0x2000 2), .addHook 0 (.atAddress "third" 0x3000 3),
    .addHook 0 { HookSpec.atAddress "fourth" 0x4000 4 with role := .mandatory, domain := some 2 },
    .analyze 0, .outside fun env ↦ { env with heap := heap }, .prepare 0]

theorem System.domainBoundary_run_hookDomain :
    Meets (fun _ ↦ Engine.grouping) id (DomainBoundary fun _ ↦ Engine.grouping)
      (System.fresh () fun _ ↦ 0) (Op.hookDomain [] ++ [.commit 0]) :=
  System.domainBoundary_run (fun _ ↦ Engine.grouping) id (System.fresh_initial () fun _ ↦ 0)
    (Op.hookDomain [] ++ [.commit 0]) (by decide +kernel)

/-- A first preparation has run out of memory at the wave, when one member was prepared, and the
catalog has moved since. -/
def System.interrupted : System Unit :=
  ((System.fresh () fun _ ↦ 0).run (fun _ ↦ .grouping) id
    (Op.hookDomain [true, true, true, false])).step (fun _ ↦ .grouping) id
      (.outside fun env ↦ { env with generation := fun runtime ↦ env.generation runtime + 1 })

/-- The second preparation settles the other member as stale, but it finds the gate shut, since a
prepared member is not one with a route, and leaves the first member prepared. -/
theorem System.prepared_beside_stale :
    (System.fresh () fun _ ↦ 0).Initial ∧
      ¬Meets (fun _ ↦ Engine.grouping) id (DomainBoundary fun _ ↦ Engine.grouping)
        (System.fresh () fun _ ↦ 0) (Op.hookDomain [true, true, true, false] ++
          [.outside fun env ↦ { env with generation := fun runtime ↦ env.generation runtime + 1 },
            .prepare 0]) := by
  refine ⟨System.fresh_initial () fun _ ↦ 0, fun h ↦ ?_⟩
  have hboundary : interrupted.DomainBoundary (fun _ ↦ .grouping) (.prepare 0) :=
    (Meets.append h).2.2.1
  obtain ⟨plan, hplan, hstate, hrequires, ⟨stale, hstale, hdomain, hrole, hfails⟩, hook, hmem,
      hdomain', hprepared⟩ :
      ∃ plan ∈ interrupted.plans 0, plan.state = .analyzed ∧ plan.RequiresAll 2 ∧
        (∃ hook ∈ (preparePlan (fun _ ↦ .grouping) plan interrupted.world).2.1.hooks,
          hook.spec.domain = some 2 ∧ hook.spec.role = .mandatory ∧
            hook.result.outcome.isPrepareFailure = true) ∧
        ∃ hook ∈ (preparePlan (fun _ ↦ .grouping) plan interrupted.world).2.1.hooks,
          hook.spec.domain = some 2 ∧ hook.result.outcome = .prepared := by decide +kernel
  exact (hboundary plan hplan hstate 2 hrequires (.inr ⟨stale, hstale, hdomain, hrole, hfails⟩) hook
    hmem hdomain').1 hprepared

end HookKit
