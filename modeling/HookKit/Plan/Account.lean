import HookKit.Plan.SystemSteps

/-!
# The history accounts for the hooks

In every run the history and the hooks agree on what became of whom: a hook is in one place, what
its commit settled is what its result says, and nobody is installed without being active.  This is
what statements about single hooks over whole runs are derived from.

* `lastOutcome` — the outcome of a hook, as the history tells.
* `Hook.Accounted` — a hook and the history agree.
* `System.Sound` — the invariant, with `System.run_sound`.
-/

set_option autoImplicit false

namespace HookKit

open Trace

variable {ε : Type} {engines : EngineRef → Engine ε}

/-! ## Whom an event is about -/

/-- The hook an event is about. -/
def Event.about : Event → Option Id
  | .prepareCall _ hook _ _ | .prepareSettled hook _ => some hook
  | .commitCall c => some c.hook
  | .commitSettled r => some r.hook
  | _ => none

/-- The outcome an event gives the hook. -/
def Event.outcomeOf (id : Id) : Event → Option Outcome
  | .prepareSettled hook outcome => if hook = id then some outcome else none
  | .commitSettled r => if r.hook = id then some r.outcome else none
  | _ => none

/-- The outcome of a hook, as the history tells. -/
def lastOutcome (id : Id) (history : List Event) : Option Outcome :=
  history.findSome? (Event.outcomeOf id)

section

variable {id : Id} {old new : List Event} {e : Event} {ids : List Id}

theorem Event.outcomeOf_of_about (h : e.about ≠ some id) : e.outcomeOf id = none := by
  cases e with
  | prepareSettled hook outcome => exact if_neg fun heq ↦ h (by rw [← heq]; rfl)
  | commitSettled r => exact if_neg fun heq ↦ h (by rw [← heq]; rfl)
  | _ => rfl

theorem Event.ofPrepare.about (h : e.ofPrepare ids) : ∀ id, e.about = some id → id ∈ ids := by
  intro id habout
  cases e with
  | prepareSettled hook outcome =>
    cases habout
    exact h.1
  | prepareCall path hook recorded current =>
    cases habout
    exact h
  | obtained => cases habout
  | released => cases habout
  | _ => exact h.elim

theorem Event.ofState.about (h : e.ofState) : e.about = none := by
  cases e <;> first | rfl | exact h.elim

/-- Events that say nothing about the outcome of a hook do not change it. -/
theorem lastOutcome_adds (h : Adds (fun e ↦ e.outcomeOf id = none) old new) :
    lastOutcome id new = lastOutcome id old := by
  obtain ⟨added, rfl, hQ⟩ := h
  rw [lastOutcome, List.findSome?_append, List.findSome?_eq_none_iff.mpr hQ]
  rfl

/-- Events that all give a hook the same outcome. -/
theorem lastOutcome_append {added : List Event} {o : Outcome}
    (hall : ∀ e ∈ added, ∀ o', e.outcomeOf id = some o' → o' = o)
    (hsome : ∃ e ∈ added, e.outcomeOf id = some o) :
    lastOutcome id (added ++ old) = some o := by
  rw [lastOutcome, List.findSome?_append]
  cases hfound : added.findSome? (Event.outcomeOf id) with
  | none =>
    obtain ⟨e, he, ho⟩ := hsome
    rw [List.findSome?_eq_none_iff.mp hfound e he] at ho
    cases ho
  | some o' =>
    obtain ⟨e, he, ho⟩ := List.exists_of_findSome?_eq_some hfound
    rw [hall e he o' ho]
    rfl

end

/-! ## One hook -/

/-- The history and the hook agree. -/
structure Hook.Accounted (history : List Event) (h : Hook) : Prop where
  settled : ∀ r, .commitSettled r ∈ history → r.hook = h.hookId →
    r.outcome = h.result.outcome ∧ r.outcome.isFinal = true
  called : ∀ c, .commitCall c ∈ history → c.hook = h.hookId →
    ∃ r, .commitSettled r ∈ history ∧ r.hook = h.hookId ∧ r.outcome ≠ .stalePlan
  active : lastOutcome h.hookId history = some .active ↔ h.result.outcome = .active
  installed : h.installed ≠ none → h.result.outcome = .active

namespace Hook.Accounted

variable {old new : List Event} {h h' : Hook} {ids : List Id}

/-- What happens to others is of no account. -/
theorem frame (hacc : h.Accounted old) (hadds : Adds (fun e ↦ e.about ≠ some h.hookId) old new) :
    h.Accounted new := by
  refine ⟨fun r hr hid ↦ ?_, fun c hc hid ↦ ?_, ?_, hacc.installed⟩
  · rcases hadds.mem hr with hr | hr
    · exact hacc.settled r hr hid
    · exact absurd (congrArg some hid) hr
  · rcases hadds.mem hc with hc | hc
    · obtain ⟨r, hr, hrid, hne⟩ := hacc.called c hc hid
      exact ⟨r, hadds.mem_old hr, hrid, hne⟩
    · exact absurd (congrArg some hid) hc
  · rw [lastOutcome_adds (hadds.mono fun e ↦ Event.outcomeOf_of_about)]
    exact hacc.active

/-- A hook that no commit has settled is analyzed or prepared, or a settled one is left alone. -/
theorem prepares (hacc : h.Accounted old) (hid : h'.hookId = h.hookId)
    (hinstalled : h'.installed = h.installed) (hbefore : h.result.outcome ≠ .active)
    (hafter : h'.result.outcome ≠ .active)
    (houtcome : h.result.outcome.isFinal = false ∨ h'.result.outcome = h.result.outcome)
    (hadds : Adds (Event.ofPrepare ids) old new) : h'.Accounted new := by
  refine ⟨fun r hr hrid ↦ ?_, fun c hc hcid ↦ ?_, ?_, fun hne ↦ ?_⟩
  · rcases hadds.mem hr with hr | hr
    · obtain ⟨heq, hfinal⟩ := hacc.settled r hr (hrid.trans hid)
      rcases houtcome with h | h
      · rw [heq, h] at hfinal
        cases hfinal
      · exact ⟨heq.trans h.symm, hfinal⟩
    · exact hr.elim
  · rcases hadds.mem hc with hc | hc
    · obtain ⟨r, hr, hrid, hne⟩ := hacc.called c hc (hcid.trans hid)
      exact ⟨r, hadds.mem_old hr, hrid.trans hid.symm, hne⟩
    · exact hc.elim
  · refine iff_of_false (fun hlast ↦ ?_) hafter
    obtain ⟨added, rfl, hQ⟩ := hadds
    rw [hid, lastOutcome, List.findSome?_append] at hlast
    cases hfound : added.findSome? (Event.outcomeOf h.hookId) with
    | none =>
      rw [hfound] at hlast
      exact hbefore (hacc.active.mp hlast)
    | some o =>
      rw [hfound] at hlast
      obtain ⟨e, he, ho⟩ := List.exists_of_findSome?_eq_some hfound
      have hprep := hQ e he
      cases e with
      | prepareSettled hook outcome =>
        rw [Event.outcomeOf] at ho
        split at ho
        · cases ho
          exact hprep.2 (Option.some.inj hlast)
        · cases ho
      | commitSettled r => exact hprep.elim
      | _ => cases ho
  · rw [hinstalled] at hne
    exact absurd (hacc.installed hne) hbefore

/-- A hook nobody has heard of. -/
theorem blank (hblank : h.Blank) (hnew : ∀ e ∈ old, e.about ≠ some h.hookId) :
    h.Accounted old := by
  refine ⟨fun r hr hid ↦ ?_, fun c hc hid ↦ ?_, ?_, fun hne ↦ absurd hblank.installed hne⟩
  · exact absurd (congrArg some hid) (hnew _ hr)
  · exact absurd (congrArg some hid) (hnew _ hc)
  · refine iff_of_false (fun hlast ↦ ?_) (by rw [hblank.outcome]; exact nofun)
    obtain ⟨e, he, ho⟩ := List.exists_of_findSome?_eq_some hlast
    rw [Event.outcomeOf_of_about (hnew e he)] at ho
    cases ho

end Hook.Accounted

/-! ## A commit -/

theorem eq_of_hookId {hooks : List Hook} (hnodup : (hooks.map Hook.hookId).Nodup) {x y : Hook}
    (hx : x ∈ hooks) (hy : y ∈ hooks) (h : x.hookId = y.hookId) : x = y :=
  List.inj_on_of_nodup_map hnodup hx hy h

theorem commits_hookIds {hooks hooks' : List Hook} (h : List.Forall₂ Hook.Commits hooks hooks') :
    hooks'.map Hook.hookId = hooks.map Hook.hookId :=
  Pointwise.map_eq h _ fun _ _ h ↦ h.hookId

theorem Event.settles.about {hooks hooks' : List Hook} {e : Event} (h : e.settles hooks hooks') :
    ∀ id, e.about = some id → id ∈ hooks.map Hook.hookId := by
  intro id habout
  cases e with
  | commitCall c =>
    obtain ⟨hook, hmem, -, -, -, hid, -⟩ := h
    cases habout
    rw [hid]
    exact List.mem_map_of_mem hmem
  | commitSettled r =>
    obtain ⟨hook, hmem, -, -, -, hid, -⟩ := h
    cases habout
    rw [hid]
    exact List.mem_map_of_mem hmem
  | compensateCall => cases habout
  | _ => exact h.elim

/-- **One pass of a commit keeps the hooks accounted for.** -/
theorem CommitPass.accounted {plan : CommitPlan} {st : CommitState ε}
    {flow : Loop.Flow (CommitState ε)} (h : CommitPass engines plan st flow)
    (hvalid : ∀ i ∈ plan.order, i < st.hooks.length) (horder : plan.order.Nodup)
    (hids : (st.hooks.map Hook.hookId).Nodup)
    (hacc : ∀ hook ∈ st.hooks, hook.Accounted st.world.history) :
    ∀ hook ∈ flow.state.hooks, hook.Accounted flow.state.world.history := by
  have hcommits := h.commits hvalid horder
  have hevents := (h.events hvalid horder).history
  have hids' : (flow.state.hooks.map Hook.hookId).Nodup := by rwa [commits_hookIds hcommits]
  intro x' hx'
  obtain ⟨x, hx, hc'⟩ := Pointwise.mem_right hcommits hx'
  rcases hc'.outcome with rfl | ⟨hprepared, hfinal⟩
  · -- an event about a hook that stays as it is would make it both prepared and settled
    refine (hacc x' hx).frame (hevents.mono fun e he habout ↦ ?_)
    have hboth : ∀ y ∈ st.hooks, ∀ y' ∈ flow.state.hooks, y.Same y' → y.hookId = x'.hookId →
        y.result.outcome = .prepared → y'.result.outcome.isFinal = true → False := by
      intro y hy y' hy' hsame hid hp hf
      rw [eq_of_hookId hids hy hx hid] at hp
      rw [eq_of_hookId hids' hy' hx' (hsame.hookId.trans hid), hp] at hf
      cases hf
    cases e with
    | commitCall c =>
      obtain ⟨y, hy, y', hy', hsame, hid, hp, hf⟩ := he
      exact hboth y hy y' hy' hsame (hid.symm.trans (Option.some.inj habout)) hp
        (Outcome.isFinal_of_isVerdict hf)
    | commitSettled r =>
      obtain ⟨y, hy, y', hy', hsame, hid, hp, hf, -⟩ := he
      exact hboth y hy y' hy' hsame (hid.symm.trans (Option.some.inj habout)) hp hf
    | compensateCall => cases habout
    | _ => exact he.elim
  · have hold : ∀ r, .commitSettled r ∈ st.world.history → r.hook ≠ x'.hookId := by
      intro r hr hid
      obtain ⟨heq, hf⟩ := (hacc x hx).settled r hr (hid.trans hc'.hookId)
      rw [heq, hprepared] at hf
      cases hf
    have hnew : ∀ r, Event.settles st.hooks flow.state.hooks (.commitSettled r) →
        r.hook = x'.hookId → r.outcome = x'.result.outcome := by
      rintro r ⟨y, hy, y', hy', hsame, hid, -, -, ho⟩ hrid
      rw [ho, eq_of_hookId hids' hy' hx' (hsame.hookId.trans (hid.symm.trans hrid))]
    obtain ⟨path, required, published, hrecord⟩ : x'.Recorded engines flow.state.world.history := by
      rcases h.recorded x' hx' with hmem | hrecorded
      · rw [eq_of_hookId hids hmem hx hc'.hookId, hprepared] at hfinal
        cases hfinal
      · exact hrecorded
    refine ⟨fun r hr hid ↦ ?_, fun c hc hid ↦ ⟨_, hrecord, rfl, ?_⟩, ?_, fun hne ↦ ?_⟩
    · rcases hevents.mem hr with hr | hr
      · exact absurd hid (hold r hr)
      · have ho := hnew r hr hid
        exact ⟨ho, by rw [ho]; exact hfinal⟩
    · rcases hevents.mem hc with hc | ⟨y, hy, y', hy', hsame, hyid, -, hverdict⟩
      · obtain ⟨r, hr, hrid, -⟩ := (hacc x hx).called c hc (hid.trans hc'.hookId)
        exact absurd (hrid.trans hc'.hookId.symm) (hold r hr)
      · rw [eq_of_hookId hids' hy' hx' (hsame.hookId.trans (hyid.symm.trans hid))] at hverdict
        exact Outcome.ne_stale_of_isVerdict hverdict
    · obtain ⟨added, heq, hQ⟩ := hevents
      rw [heq, lastOutcome_append (o := x'.result.outcome)]
      · rw [Option.some_inj]
      · intro e he o' ho
        have hsettles := hQ e he
        cases e with
        | commitSettled r =>
          rw [Event.outcomeOf] at ho
          split at ho
          · rename_i hid
            cases ho
            exact hnew r hsettles hid
          · cases ho
        | prepareSettled => exact hsettles.elim
        | _ => cases ho
      · rw [heq] at hrecord
        rcases List.mem_append.mp hrecord with hmem | hmem
        · exact ⟨_, hmem, if_pos rfl⟩
        · exact absurd rfl (hold _ hmem)
    · rcases hc'.installed with heq | hactive
      · rw [heq] at hne
        have := (hacc x hx).installed hne
        rw [hprepared] at this
        cases this
      · exact hactive

/-- A state of the loop in `hk_plan_commit` that started with `hooks` in `w`. -/
structure CommitState.Sound (hooks : List Hook) (w : World ε) (st : CommitState ε) : Prop where
  commits : List.Forall₂ Hook.Commits hooks st.hooks
  accounted : ∀ hook ∈ st.hooks, hook.Accounted st.world.history
  added : w.Adds (fun e ↦ ∀ id, e.about = some id → id ∈ hooks.map Hook.hookId) st.world

theorem CommitState.Sound.pass {plan : CommitPlan} {hooks : List Hook} {w : World ε}
    {st : CommitState ε} {flow : Loop.Flow (CommitState ε)} (h : st.Sound hooks w)
    (hpass : CommitPass engines plan st flow) (horder : plan.order.Nodup)
    (hvalid : ∀ i ∈ plan.order, i < hooks.length) (hids : (hooks.map Hook.hookId).Nodup) :
    flow.state.Sound hooks w := by
  have hvalid' : ∀ i ∈ plan.order, i < st.hooks.length := fun i hi ↦
    h.commits.length_eq ▸ hvalid i hi
  refine ⟨Pointwise.trans (fun _ _ _ ↦ Hook.Commits.trans) h.commits (hpass.commits hvalid' horder),
    hpass.accounted hvalid' horder ?_ h.accounted,
    h.added.trans ((hpass.events hvalid' horder).mono fun e he ↦ ?_)⟩
  · rwa [commits_hookIds h.commits]
  · rw [← commits_hookIds h.commits]
    exact he.about

/-- The indices of a commit order are indices of hooks. -/
theorem PreparedAt.lt {hooks : List Hook} {i : Nat} (h : PreparedAt hooks i) :
    i < hooks.length := by
  obtain ⟨hook, hget, -⟩ := h
  exact (List.getElem?_eq_some_iff.mp hget).1

theorem commitLoop_sound {plan : CommitPlan} {hooks : List Hook} {w : World ε}
    (horder : plan.order.Nodup) (hprepared : ∀ i ∈ plan.order, PreparedAt hooks i)
    (hids : (hooks.map Hook.hookId).Nodup) (hacc : ∀ hook ∈ hooks, hook.Accounted w.history) :
    (commitLoop engines plan hooks w).state.Sound hooks w := by
  have hvalid : ∀ i ∈ plan.order, i < hooks.length := fun i hi ↦ (hprepared i hi).lt
  refine commitLoop_induction (fun st ↦ st.Sound hooks w) horder hvalid
    ⟨Pointwise.refl .refl hooks, hacc, .refl w⟩ fun st _ flow hst hpass ↦ ?_
  exact hst.pass hpass horder hvalid hids

/-- What a call of `hk_plan_commit` leaves. -/
structure CommitCallSound (plan : Plan) (runtime : Runtime) (w : World ε) (plan' : Plan)
    (runtime' : Runtime) (w' : World ε) : Prop where
  commits : List.Forall₂ Hook.Commits plan.hooks plan'.hooks
  accounted : ∀ hook ∈ plan'.hooks, hook.Accounted w'.history
  added : w.Adds (fun e ↦ ∀ id, e.about = some id → id ∈ plan.hooks.map Hook.hookId) w'
  pending : runtime'.pending = runtime.pending
  state : plan' = plan ∨ plan'.state ≠ .draft ∧ plan'.state ≠ .analyzed

theorem commitPlan_sound {runtime runtime' : Runtime} {plan plan' : Plan} {status : Status}
    {w w' : World ε} (hcall : commitPlan engines runtime plan w = (status, plan', runtime', w'))
    (hids : (plan.hooks.map Hook.hookId).Nodup)
    (hacc : ∀ hook ∈ plan.hooks, hook.Accounted w.history) :
    CommitCallSound plan runtime w plan' runtime' w' := by
  rcases commitPlan_cases engines runtime plan w with
    ⟨_, _, _, heq, hworld⟩ | ⟨order, w₁, _, _, _, _, heq, hran⟩
  · cases hcall.symm.trans heq
    refine ⟨Pointwise.refl .refl _, fun hook hhook ↦ ?_, hworld.toAdds.mono fun _ ↦ False.elim, rfl,
      .inl rfl⟩
    rw [hworld.history_eq]
    exact hacc hook hhook
  · cases hcall.symm.trans heq
    have hsound := @commitLoop_sound _ engines (plan.toCommit runtime order) plan.hooks _
      hran.nodup hran.prepared hids fun hook hhook ↦ by
        rw [hran.before.history_eq]
        exact hacc hook hhook
    obtain ⟨state, rfl, hstate⟩ := hran.planAfter
    obtain ⟨artifacts, rfl⟩ := hran.runtimeAfter
    refine ⟨hsound.commits, fun hook hhook ↦ ?_, ?_, rfl, .inr ?_⟩
    · rw [hran.after.history_eq]
      exact hsound.accounted hook hhook
    · exact ((hran.before.toAdds.mono fun _ ↦ False.elim).trans hsound.added).trans
        (hran.after.toAdds.mono fun _ ↦ False.elim)
    · dsimp only
      rcases hstate with ⟨-, rfl⟩ | ⟨-, rfl⟩
      · rcases hran.accepted with h | h <;> rw [h] <;> exact ⟨nofun, nofun⟩
      · rw [CommitState.planState]
        split
        · exact ⟨nofun, nofun⟩
        · split <;> exact ⟨nofun, nofun⟩

/-! ## A drain -/

/-- What happens to a queued hook is about this hook. -/
theorem DrainPass.about {runtime : RuntimeId} {hook : Hook} {drained : Drained} {w w' : World ε}
    (h : DrainPass engines runtime hook w drained w') :
    w.Adds (fun e ↦ ∀ id, e.about = some id → id = hook.hookId) w' := by
  have hprepare : ∀ e : Event, e.ofPrepare [hook.hookId] →
      ∀ id, e.about = some id → id = hook.hookId :=
    fun e he id hid ↦ List.mem_singleton.mp (he.about id hid)
  cases h with
  | waits _ _ _ hquiet => exact hquiet.toAdds.mono hprepare
  | fails _ hquiet => exact hquiet.toAdds.mono hprepare
  | @commits hook₁ hook' _ w₁ w₂ _ _ htouched hbefore hcommitted hafter =>
    obtain ⟨mid, required, published, hadds, rfl, -, -⟩ := hcommitted.world
    have hlog : World.Adds (fun e ↦ ∀ id, e.about = some id → id = hook.hookId) w₁
        (mid.log (.commitSettled (hook'.settledRecord engines .drain required published))) := by
      refine (hadds.mono ?_).log ?_
      · rintro e ⟨rfl, -⟩ id hid
        cases hid
        exact htouched.hookId
      · intro id hid
        cases hid
        exact hcommitted.same.hookId.trans htouched.hookId
    exact (hbefore.toAdds.mono hprepare).trans (hlog.trans (hafter.toAdds.mono
      fun e he id hid ↦ by rw [he.about] at hid; cases hid))

/-- **A drain keeps the waiting hooks accounted for.** -/
theorem drainLoop_accounted (runtime : RuntimeId) (ownerId : Id) (hooks : List Hook)
    (ledger : Ledger) (w : World ε) (hids : (hooks.map Hook.hookId).Nodup)
    (hacc : ∀ hook ∈ hooks, hook.Accounted w.history ∧ hook.result.outcome = .pending) :
    (((drainLoop engines runtime ownerId hooks ledger w).1.filterMap Drained.kept).map
        Hook.hookId).Sublist (hooks.map Hook.hookId) ∧
      (∀ hook ∈ (drainLoop engines runtime ownerId hooks ledger w).1.filterMap Drained.kept,
        hook.Accounted (drainLoop engines runtime ownerId hooks ledger w).2.2.history ∧
          hook.result.outcome = .pending) ∧
      w.Adds (fun e ↦ ∀ id, e.about = some id → id ∈ hooks.map Hook.hookId)
        (drainLoop engines runtime ownerId hooks ledger w).2.2 := by
  induction hooks generalizing ledger w with
  | nil => exact ⟨.slnil, fun hook hhook ↦ absurd hhook List.not_mem_nil, .refl w⟩
  | cons hook rest ih =>
    have hpass := drainOne_pass engines runtime ownerId hook ledger w
    rw [drainLoop]
    generalize drainOne engines runtime ownerId hook ledger w = one at hpass ⊢
    obtain ⟨drained, ledger₁, w₁⟩ := one
    dsimp only at hpass ⊢
    obtain ⟨hnotin, hnodup⟩ := List.nodup_cons.mp hids
    have habout := hpass.about
    -- the hooks behind this one do not notice
    obtain ⟨hsub, hkept, hadds⟩ := ih ledger₁ w₁ hnodup fun h hh ↦ by
      obtain ⟨h₁, h₂⟩ := hacc h (List.mem_cons_of_mem hook hh)
      refine ⟨h₁.frame (habout.history.mono fun e he hid ↦ hnotin ?_), h₂⟩
      rw [← he _ hid]
      exact List.mem_map_of_mem hh
    have hall : w.Adds (fun e ↦ ∀ id, e.about = some id → id ∈ (hook :: rest).map Hook.hookId)
        (drainLoop engines runtime ownerId rest ledger₁ w₁).2.2 := by
      refine (habout.mono fun e he id hid ↦ ?_).trans (hadds.mono fun e he id hid ↦ ?_)
      · rw [he id hid]
        exact List.mem_cons_self
      · exact List.mem_cons_of_mem _ (he id hid)
    cases hpass with
    | @waits hook' _ hsame hinstalled hpending hquiet =>
      obtain ⟨hacc₀, hpending₀⟩ := hacc hook List.mem_cons_self
      have hacc₁ : hook'.Accounted w₁.history := by
        refine hacc₀.prepares hsame.hookId hinstalled ?_ ?_ (.inl ?_) hquiet.history
        · rw [hpending₀]
          simp
        · rw [hpending]
          simp
        · rw [hpending₀]
          rfl
      refine ⟨?_, fun h hh ↦ ?_, hall⟩
      · show List.Sublist (hook'.hookId :: _) (hook.hookId :: rest.map Hook.hookId)
        rw [hsame.hookId]
        exact hsub.cons_cons _
      · rcases List.mem_cons.mp hh with rfl | hh
        · refine ⟨hacc₁.frame (hadds.history.mono fun e he hid ↦ hnotin ?_), hpending⟩
          rw [← hsame.hookId]
          exact he _ hid
        · exact hkept h hh
    | fails => exact ⟨hsub.cons _, hkept, hall⟩
    | commits => exact ⟨hsub.cons _, hkept, hall⟩

/-! ## The whole process -/

namespace System

/-- Every hook is in one place, has an identifier of its own, and is accounted for. -/
structure Accounts (s : System ε) : Prop where
  apart : Apart fun place ↦ (s.held place).map Hook.hookId
  bounded : ∀ place, ∀ hook ∈ s.held place, hook.hookId < s.world.nextId
  known : ∀ e ∈ s.world.history, ∀ id, e.about = some id → id < s.world.nextId
  accounted : ∀ place, ∀ hook ∈ s.held place, hook.Accounted s.world.history

namespace Accounts

variable {s s' : System ε} {place other : Place}

theorem mem_ids {hook : Hook} (h : hook ∈ s.held place) :
    hook.hookId ∈ (s.held place).map Hook.hookId := List.mem_map_of_mem h

theorem nodup (h : s.Accounts) (place : Place) : ((s.held place).map Hook.hookId).Nodup :=
  h.apart.nodup place

/-- What happens in one place is of no account elsewhere. -/
theorem frame (h : s.Accounts) {history : List Event} (hne : other ≠ place)
    (hadds : Adds (fun e ↦ ∀ id, e.about = some id → id ∈ (s.held place).map Hook.hookId)
      s.world.history history) {hook : Hook} (hhook : hook ∈ s.held other) :
    hook.Accounted history := by
  refine (h.accounted other hook hhook).frame (hadds.mono fun e he habout ↦ ?_)
  exact h.apart.disjoint other place hne _ (mem_ids hhook) (he _ habout)

theorem known_adds (h : s.Accounts) {w' : World ε}
    (hadds : s.world.Adds (fun e ↦ ∀ id, e.about = some id → id ∈ (s.held place).map Hook.hookId)
      w') : ∀ e ∈ w'.history, ∀ id, e.about = some id → id < w'.nextId := by
  intro e he id habout
  refine lt_of_lt_of_le ?_ hadds.nextId
  rcases hadds.history.mem he with hold | hnew
  · exact h.known e hold id habout
  · obtain ⟨hook, hhook, rfl⟩ := List.mem_map.mp (hnew id habout)
    exact h.bounded place hook hhook

/-- **One place changes**: some of its hooks go, and the events are about it. -/
theorem touch (h : s.Accounts) {hooks' : List Hook}
    (hheld : s'.held = Function.update s.held place hooks')
    (hsub : (hooks'.map Hook.hookId).Sublist ((s.held place).map Hook.hookId))
    (hadds : s.world.Adds
      (fun e ↦ ∀ id, e.about = some id → id ∈ (s.held place).map Hook.hookId) s'.world)
    (hacc : ∀ hook ∈ hooks', hook.Accounted s'.world.history) : s'.Accounts := by
  refine ⟨h.apart.mono fun q ↦ ?_, fun q hook hhook ↦ ?_, h.known_adds hadds,
    fun q hook hhook ↦ ?_⟩ <;> by_cases hq : q = place
  · subst hq
    rw [hheld, Function.update_self]
    exact hsub
  · rw [hheld, Function.update_of_ne hq]
  · subst hq
    rw [hheld, Function.update_self] at hhook
    obtain ⟨before, hbefore, heq⟩ := List.mem_map.mp (hsub.subset (List.mem_map_of_mem hhook))
    rw [← heq]
    exact lt_of_lt_of_le (h.bounded q before hbefore) hadds.nextId
  · rw [hheld, Function.update_of_ne hq] at hhook
    exact lt_of_lt_of_le (h.bounded q hook hhook) hadds.nextId
  · subst hq
    rw [hheld, Function.update_self] at hhook
    exact hacc hook hhook
  · rw [hheld, Function.update_of_ne hq] at hhook
    exact h.frame hq hadds.history hhook

/-- Nothing changes but the surroundings. -/
theorem quiet (h : s.Accounts) (hheld : s'.held = s.held)
    (hquiet : s.world.Quiet (fun _ ↦ False) s'.world) : s'.Accounts := by
  refine @touch _ _ _ (.slot 0) h (s.held (.slot 0)) ?_ (.refl _)
    (hquiet.toAdds.mono fun _ ↦ False.elim) fun hook hhook ↦ ?_
  · rw [hheld, Function.update_eq_self]
  · rw [hquiet.history_eq]
    exact h.accounted _ hook hhook

theorem ids_update (s : System ε) (place : Place) (hooks : List Hook) :
    (fun q ↦ (Function.update s.held place hooks q).map Hook.hookId) =
      Function.update (fun q ↦ (s.held q).map Hook.hookId) place (hooks.map Hook.hookId) := by
  funext q
  exact Function.apply_update (fun _ ↦ List.map Hook.hookId) s.held place hooks q

/-- **A new hook.** -/
theorem add (h : s.Accounts) {hook : Hook}
    (hheld : s'.held = Function.update s.held place (s.held place ++ [hook])) (hblank : hook.Blank)
    (hfresh : s.world.nextId ≤ hook.hookId) (hbound : hook.hookId < s'.world.nextId)
    (hquiet : s.world.Quiet (fun _ ↦ False) s'.world) : s'.Accounts := by
  have hnew : ∀ q, hook.hookId ∉ (s.held q).map Hook.hookId := by
    intro q hmem
    obtain ⟨old, hold, heq⟩ := List.mem_map.mp hmem
    have hold := h.bounded q old hold
    rw [heq] at hold
    exact absurd hfresh (not_le.mpr hold)
  have hcases : ∀ q, ∀ x ∈ s'.held q, x = hook ∨ ∃ q, x ∈ s.held q := by
    intro q x hx
    rw [hheld] at hx
    by_cases hq : q = place
    · subst hq
      rw [Function.update_self] at hx
      rcases List.mem_append.mp hx with hx | hx
      · exact .inr ⟨q, hx⟩
      · exact .inl (List.mem_singleton.mp hx)
    · rw [Function.update_of_ne hq] at hx
      exact .inr ⟨q, hx⟩
  refine ⟨?_, fun q x hx ↦ ?_, ?_, fun q x hx ↦ ?_⟩
  · rw [hheld, ids_update, List.map_append]
    refine h.apart.append place (List.nodup_singleton _) fun x hx q ↦ ?_
    rw [List.mem_singleton.mp hx]
    exact hnew q
  · rcases hcases q x hx with rfl | ⟨q', hold⟩
    · exact hbound
    · exact lt_of_lt_of_le (h.bounded q' x hold) hquiet.nextId
  · rw [hquiet.history_eq]
    exact fun e he id hid ↦ lt_of_lt_of_le (h.known e he id hid) hquiet.nextId
  · rw [hquiet.history_eq]
    rcases hcases q x hx with rfl | ⟨q', hold⟩
    · exact .blank hblank fun e he hid ↦ absurd hfresh (not_le.mpr (h.known e he _ hid))
    · exact h.accounted q' x hold

/-- **Hooks that move** from one place to another; the others there are gone. -/
theorem move (h : s.Accounts) (hne : other ≠ place) {moved : List Hook}
    (hheld : s'.held = Function.update (Function.update s.held place []) other
      (s.held other ++ moved))
    (hsub : moved.Sublist (s.held place)) (hquiet : s.world.Quiet Event.ofState s'.world) :
    s'.Accounts := by
  have hadds : s.world.Adds (fun e ↦ ∀ id, e.about = some id → id ∈ (s.held place).map Hook.hookId)
      s'.world := hquiet.toAdds.mono fun e he id hid ↦ by rw [he.about] at hid; cases hid
  have hnobody : ∀ x : Hook, Adds (fun e ↦ e.about ≠ some x.hookId) s.world.history
      s'.world.history := fun x ↦ hquiet.history.mono fun e he hid ↦ by
    rw [he.about] at hid
    cases hid
  have hcases : ∀ q, ∀ x ∈ s'.held q, ∃ q, x ∈ s.held q := by
    intro q x hx
    rw [hheld] at hx
    by_cases hq : q = other
    · subst hq
      rw [Function.update_self] at hx
      rcases List.mem_append.mp hx with hx | hx
      · exact ⟨q, hx⟩
      · exact ⟨place, hsub.subset hx⟩
    · rw [Function.update_of_ne hq] at hx
      by_cases hq' : q = place
      · subst hq'
        rw [Function.update_self] at hx
        exact absurd hx List.not_mem_nil
      · rw [Function.update_of_ne hq'] at hx
        exact ⟨q, hx⟩
  refine ⟨?_, fun q x hx ↦ ?_, h.known_adds hadds, fun q x hx ↦ ?_⟩
  · have hids : (fun q ↦ (s'.held q).map Hook.hookId) = Function.update
        (Function.update (fun q ↦ (s.held q).map Hook.hookId) place []) other
        ((s.held other).map Hook.hookId ++ moved.map Hook.hookId) := by
      funext q
      rw [hheld, ← List.map_append]
      refine (Function.apply_update (fun _ ↦ List.map Hook.hookId) _ other _ q).trans ?_
      congr 1
      exact ids_update s place []
    rw [hids]
    exact h.apart.move hne (hsub.map _)
  · obtain ⟨q', hold⟩ := hcases q x hx
    exact lt_of_lt_of_le (h.bounded q' x hold) hquiet.nextId
  · obtain ⟨q', hold⟩ := hcases q x hx
    exact (h.accounted q' x hold).frame (hnobody x)

end Accounts

end System

/-- The hooks of a plan that was not committed yet: none of them is active, and only prepared ones
keep an engine's state; in a draft none is even prepared. -/
structure Plan.Early (plan : Plan) : Prop where
  uncommitted : plan.state = .draft ∨ plan.state = .analyzed →
    ∀ hook ∈ plan.hooks, hook.result.outcome ≠ .active ∧ hook.Idle
  draft : plan.state = .draft →
    ∀ hook ∈ plan.hooks, hook.result.outcome.isFinal = false ∧ hook.result.outcome ≠ .prepared

theorem Plan.Early.of_state {plan : Plan} (h : plan.state ≠ .draft ∧ plan.state ≠ .analyzed) :
    plan.Early :=
  ⟨fun hstate ↦ absurd hstate (not_or.mpr h), fun hdraft ↦ absurd hdraft h.1⟩

/-- A draft that gets one more hook. -/
theorem Plan.Early.add {plan : Plan} {hooks : List Hook} {hook : Hook}
    (hhooks : plan.hooks = hooks ++ [hook]) (hblank : hook.Blank)
    (hbefore : ∀ h ∈ hooks, h.result.outcome ≠ .active ∧ h.Idle ∧
      h.result.outcome.isFinal = false ∧ h.result.outcome ≠ .prepared) : plan.Early := by
  have hall : ∀ h ∈ plan.hooks, h.result.outcome ≠ .active ∧ h.Idle ∧
      h.result.outcome.isFinal = false ∧ h.result.outcome ≠ .prepared := by
    intro h hh
    rw [hhooks] at hh
    rcases List.mem_append.mp hh with hh | hh
    · exact hbefore h hh
    · rw [List.mem_singleton.mp hh, hblank.outcome]
      exact ⟨nofun, fun _ ↦ hblank.preparedState, rfl, nofun⟩
  exact ⟨fun _ h hh ↦ ⟨(hall h hh).1, (hall h hh).2.1⟩, fun _ h hh ↦ (hall h hh).2.2⟩

theorem Plan.Early.analyzed {engines : EngineRef → Engine ε} {runtime : Runtime}
    {plan plan' : Plan} (h : plan.Early) (hdraft : plan.state = .draft)
    (hhooks : List.Forall₂ (Hook.Analyzes engines runtime) plan.hooks plan'.hooks) :
    plan'.Early := by
  have hall : ∀ x ∈ plan'.hooks,
      (x.result.outcome = .analyzed ∨ x.result.outcome = .noRoute) ∧ x.preparedState = 0 := by
    intro x hx
    obtain ⟨y, hy, ha⟩ := Pointwise.mem_right hhooks hx
    refine ⟨ha.outcome, ha.preparedState.trans ?_⟩
    exact (h.uncommitted (.inl hdraft) y hy).2 (h.draft hdraft y hy).2
  constructor
  · intro _ x hx
    obtain ⟨houtcome, hstate⟩ := hall x hx
    refine ⟨?_, fun _ ↦ hstate⟩
    rcases houtcome with h | h <;> rw [h] <;> exact nofun
  · intro _ x hx
    rcases (hall x hx).1 with h | h <;> rw [h] <;> exact ⟨rfl, nofun⟩

theorem preparesTo_active {o o' : Outcome} (h : o.preparesTo o') (hne : o ≠ .active) :
    o' ≠ .active := by
  rintro rfl
  cases o <;> simp_all [Outcome.preparesTo]

/-- Preparation does not touch a verdict. -/
theorem preparesTo_isFinal {o o' : Outcome} (h : o.preparesTo o') :
    o.isFinal = false ∨ o' = o := by
  cases o <;> first | exact .inl rfl | exact .inr h

/-- A plan that is not analyzed is not prepared. -/
theorem preparePlan_refused {plan : Plan} (h : plan.state ≠ .analyzed) (w : World ε) :
    preparePlan engines plan w = (.invalidState, plan, w) := by
  rw [preparePlan, if_pos h]

theorem Plan.Early.prepared {plan plan' : Plan} {w w' : World ε} {status : Status}
    (h : plan.Early) (hcall : preparePlan engines plan w = (status, plan', w')) : plan'.Early := by
  by_cases hstate : plan.state = .analyzed
  · obtain ⟨-, hooks, state, heq, hprepares, -⟩ := preparePlan_spec engines plan w
    rw [hcall] at heq
    dsimp only at heq
    subst heq
    have hall : ∀ x ∈ hooks, x.result.outcome ≠ .active ∧ x.Idle := by
      intro x hx
      obtain ⟨y, hy, hp⟩ := Pointwise.mem_right hprepares hx
      obtain ⟨hactive, hidle⟩ := h.uncommitted (.inr hstate) y hy
      exact ⟨preparesTo_active hp.outcome hactive, hp.idle hidle⟩
    refine ⟨fun _ ↦ hall, fun hdraft ↦ ?_⟩
    obtain ⟨-, _, _, heq', -, hstate'⟩ := preparePlan_spec engines plan w
    rw [hcall] at heq'
    cases heq'
    rcases hstate' with h' | ⟨-, h' | h' | h'⟩
    · rw [h'] at hdraft
      rw [hdraft] at hstate
      cases hstate
    all_goals
      rw [h'] at hdraft
      cases hdraft
  · rw [preparePlan_refused hstate] at hcall
    cases hcall
    exact h

namespace System

/-- **The invariant of all runs.** -/
structure Sound (s : System ε) : Prop extends Accounts s where
  plans : ∀ slot plan, s.plans slot = some plan → plan.Early
  queued : ∀ id, ∀ hook ∈ (s.runtimes id).pending, hook.result.outcome = .pending

theorem Initial.sound {s : System ε} (h : s.Initial) : s.Sound := by
  have hheld : ∀ place, s.held place = [] := by
    rintro (slot | id)
    · rw [held, planHooks, h.plans]
      rfl
    · exact h.pending id
  refine ⟨⟨⟨fun place ↦ ?_, fun place other _ x hx ↦ ?_⟩, fun place hook hhook ↦ ?_,
    fun e he ↦ ?_, fun place hook hhook ↦ ?_⟩, fun slot plan hplan ↦ ?_, fun id hook hhook ↦ ?_⟩
  · rw [hheld]
    exact .nil
  · rw [hheld] at hx
    exact absurd hx List.not_mem_nil
  · rw [hheld] at hhook
    exact absurd hhook List.not_mem_nil
  · rw [h.history] at he
    exact absurd he List.not_mem_nil
  · rw [hheld] at hhook
    exact absurd hhook List.not_mem_nil
  · rw [h.plans] at hplan
    cases hplan
  · rw [h.pending] at hhook
    exact absurd hhook List.not_mem_nil

namespace Sound

variable {s : System ε}

/-- The plans of the other slots stay, and the one in `slot` is replaced. -/
theorem plans_setPlan (h : s.Sound) {slot : Nat} {plan' : Plan} (hearly : plan'.Early) :
    ∀ slot' plan, (s.setPlan slot (some plan')).plans slot' = some plan → plan.Early := by
  intro slot' plan hplan
  rw [setPlan] at hplan
  dsimp only at hplan
  by_cases hslot : slot' = slot
  · subst hslot
    rw [Function.update_self] at hplan
    cases hplan
    exact hearly
  · rw [Function.update_of_ne hslot] at hplan
    exact h.plans slot' plan hplan

theorem held_slot {slot : Nat} {plan : Plan} (hplan : s.plans slot = some plan) :
    s.held (.slot slot) = plan.hooks := planHooks_some hplan

theorem nodup_plan (h : s.Sound) {slot : Nat} {plan : Plan} (hplan : s.plans slot = some plan) :
    (plan.hooks.map Hook.hookId).Nodup := by
  rw [← held_slot hplan]
  exact h.nodup _

theorem accounted_plan (h : s.Sound) {slot : Nat} {plan : Plan} (hplan : s.plans slot = some plan) :
    ∀ hook ∈ plan.hooks, hook.Accounted s.world.history := by
  rw [← held_slot hplan]
  exact h.accounted _

/-- A commit leaves the queue of the runtime as it is. -/
theorem held_committed {slot : Nat} {plan plan' : Plan} {runtime' : Runtime}
    (hpending : runtime'.pending = (s.runtimes plan.runtime).pending) (w' : World ε) :
    (((s.setPlan slot (some plan')).setRuntime plan.runtime runtime').setWorld w').held =
      Function.update s.held (.slot slot) plan'.hooks := by
  have hne : Place.queue plan.runtime ≠ .slot slot := by simp
  rw [held_setWorld, held_setRuntime, held_setPlan, hpending, Option.map_some, Option.getD_some]
  refine Function.update_eq_iff.mpr ⟨?_, fun _ _ ↦ rfl⟩
  rw [Function.update_of_ne hne]
  rfl

theorem queued_setRuntime {id : RuntimeId} {runtime : Runtime}
    (hqueued : ∀ id, ∀ hook ∈ (s.runtimes id).pending, hook.result.outcome = .pending)
    (hpending : ∀ hook ∈ runtime.pending, hook.result.outcome = .pending) :
    ∀ id', ∀ hook ∈ ((s.setRuntime id runtime).runtimes id').pending,
      hook.result.outcome = .pending := by
  intro id' hook hhook
  rw [setRuntime] at hhook
  dsimp only at hhook
  by_cases hid : id' = id
  · subst hid
    rw [Function.update_self] at hhook
    exact hpending hook hhook
  · rw [Function.update_of_ne hid] at hhook
    exact hqueued id' hook hhook

theorem drafted (h : s.Sound) {slot : Nat} {plan' : Plan} {w' : World ε}
    (hbefore : ∀ plan, s.plans slot = some plan → plan.state = .draft)
    (hhooks : plan'.hooks = s.planHooks slot ∨ ∃ hook,
      plan'.hooks = s.planHooks slot ++ [hook] ∧ hook.Blank ∧ s.world.nextId ≤ hook.hookId ∧
        hook.hookId < w'.nextId)
    (hquiet : s.world.Quiet (fun _ ↦ False) w') :
    ((s.setPlan slot (some plan')).setWorld w').Sound := by
  have hold : ∀ hook ∈ s.planHooks slot, hook.result.outcome ≠ .active ∧ hook.Idle ∧
      hook.result.outcome.isFinal = false ∧ hook.result.outcome ≠ .prepared := by
    intro hook hhook
    rw [planHooks] at hhook
    cases hplan : s.plans slot with
    | none =>
      rw [hplan] at hhook
      exact absurd hhook List.not_mem_nil
    | some plan =>
      rw [hplan] at hhook
      have hdraft := hbefore plan hplan
      obtain ⟨hactive, hidle⟩ := (h.plans slot plan hplan).uncommitted (.inl hdraft) hook hhook
      obtain ⟨hfinal, hprepared⟩ := (h.plans slot plan hplan).draft hdraft hook hhook
      exact ⟨hactive, hidle, hfinal, hprepared⟩
  rcases hhooks with hsame | ⟨hook, hadded, hblank, hfresh, hbound⟩
  · refine ⟨h.toAccounts.quiet ?_ hquiet, h.plans_setPlan ?_, h.queued⟩
    · rw [held_setWorld, held_setPlan, Option.map_some, Option.getD_some, hsame]
      exact Function.update_eq_self (Place.slot slot) s.held
    · refine ⟨fun _ hook hhook ↦ ?_, fun _ hook hhook ↦ ?_⟩ <;> rw [hsame] at hhook <;>
        obtain ⟨hactive, hidle, hfinal, hprepared⟩ := hold hook hhook
      · exact ⟨hactive, hidle⟩
      · exact ⟨hfinal, hprepared⟩
  · refine ⟨@Accounts.add _ _ _ (.slot slot) h.toAccounts _ ?_ hblank hfresh hbound hquiet,
      h.plans_setPlan ?_, h.queued⟩
    · rw [held_setWorld, held_setPlan, Option.map_some, Option.getD_some, hadded]
      rfl
    · exact .add hadded hblank hold

theorem analyzed (h : s.Sound) {slot : Nat} {plan plan' : Plan} {w' : World ε}
    (hplan : s.plans slot = some plan) (hdraft : plan.state = .draft)
    {runtime : Runtime}
    (hhooks : List.Forall₂ (Hook.Analyzes engines runtime) plan.hooks plan'.hooks)
    (hquiet : s.world.Quiet (fun _ ↦ False) w') :
    ((s.setPlan slot (some plan')).setWorld w').Sound := by
  have hearly := (h.plans slot plan hplan).analyzed hdraft hhooks
  refine ⟨h.toAccounts.touch (held_setPlan s slot (some plan')) ?_
    (hquiet.toAdds.mono fun _ ↦ False.elim) fun x hx ↦ ?_, h.plans_setPlan hearly, h.queued⟩
  · rw [held_slot hplan]
    exact (Pointwise.map_eq hhooks Hook.hookId fun _ _ ha ↦ ha.hookId) ▸ .refl _
  · obtain ⟨y, hy, ha⟩ := Pointwise.mem_right hhooks hx
    refine @Hook.Accounted.prepares _ _ _ _ [] (h.accounted_plan hplan y hy) ha.hookId ha.installed
      ((h.plans slot plan hplan).uncommitted (.inl hdraft) y hy).1 ?_
      (.inl ((h.plans slot plan hplan).draft hdraft y hy).1)
      (hquiet.history.mono fun _ ↦ False.elim)
    rcases ha.outcome with h | h <;> rw [h] <;> exact nofun

theorem prepared (h : s.Sound) {slot : Nat} {plan plan' : Plan} {w' : World ε} {status : Status}
    (hplan : s.plans slot = some plan)
    (hcall : preparePlan engines plan s.world = (status, plan', w')) :
    ((s.setPlan slot (some plan')).setWorld w').Sound := by
  have hearly := (h.plans slot plan hplan).prepared hcall
  obtain ⟨hquiet, hooks, state, heq, hprepares, hstate⟩ := preparePlan_spec engines plan s.world
  rw [hcall] at hquiet heq
  dsimp only at hquiet heq
  by_cases hanalyzed : plan.state = .analyzed
  · subst heq
    have hids := Pointwise.map_eq hprepares Hook.hookId fun _ _ hp ↦ hp.hookId
    refine ⟨h.toAccounts.touch (held_setPlan s slot _) ?_ (hquiet.toAdds.mono fun e he ↦ ?_)
      fun x hx ↦ ?_, h.plans_setPlan hearly, h.queued⟩
    · rw [held_slot hplan]
      exact hids ▸ .refl _
    · rw [held_slot hplan]
      exact he.about
    · obtain ⟨y, hy, hp⟩ := Pointwise.mem_right hprepares hx
      have hactive := ((h.plans slot plan hplan).uncommitted (.inr hanalyzed) y hy).1
      exact (h.accounted_plan hplan y hy).prepares hp.hookId hp.installed hactive
        (preparesTo_active hp.outcome hactive) (preparesTo_isFinal hp.outcome) hquiet.history
  · rw [preparePlan_refused hanalyzed] at hcall
    cases hcall
    rw [setPlan_self hplan]
    exact ⟨h.toAccounts, h.plans, h.queued⟩

theorem committed (h : s.Sound) {slot : Nat} {plan plan' : Plan} {runtime' : Runtime}
    {w' : World ε} {status : Status} (hplan : s.plans slot = some plan)
    (hcall : commitPlan engines (s.runtimes plan.runtime) plan s.world =
      (status, plan', runtime', w')) :
    (((s.setPlan slot (some plan')).setRuntime plan.runtime runtime').setWorld w').Sound := by
  have hsound := commitPlan_sound hcall (h.nodup_plan hplan) (h.accounted_plan hplan)
  have hearly : plan'.Early := by
    rcases hsound.state with rfl | hstate
    · exact h.plans slot _ hplan
    · exact .of_state hstate
  refine ⟨@Accounts.touch _ _ _ (.slot slot) h.toAccounts plan'.hooks ?_ ?_ ?_
    hsound.accounted, h.plans_setPlan hearly, ?_⟩
  · exact held_committed hsound.pending w'
  · rw [held_slot hplan, commits_hookIds hsound.commits]
  · rw [held_slot hplan]
    exact hsound.added
  · refine queued_setRuntime (s := s.setPlan slot (some plan')) h.queued ?_
    rw [hsound.pending]
    exact h.queued plan.runtime

theorem released (h : s.Sound) {slot : Nat} {plan : Plan} {runtime' : Runtime} {w' : World ε}
    (hplan : s.plans slot = some plan)
    (hcall : HookKit.releasePlan engines (s.runtimes plan.runtime) plan s.world = (runtime', w')) :
    (((s.setPlan slot none).setRuntime plan.runtime runtime').setWorld w').Sound := by
  obtain ⟨⟨adopted, capacity, heq, hsub, hpending⟩, hquiet⟩ :=
    releaseHooks_spec engines plan.hooks (s.runtimes plan.runtime) s.world
  rw [← releasePlan, hcall] at heq hquiet
  dsimp only at heq hquiet
  subst heq
  have hne : Place.queue plan.runtime ≠ .slot slot := by simp
  refine ⟨@Accounts.move _ _ _ _ _ h.toAccounts hne adopted ?_ ?_ hquiet,
    fun slot' plan' hplan' ↦ ?_, ?_⟩
  · rw [held_setWorld, held_setRuntime, held_setPlan]
    rfl
  · rw [held_slot hplan]
    exact hsub
  · replace hplan' : Function.update s.plans slot none slot' = some plan' := hplan'
    by_cases hslot : slot' = slot
    · rw [hslot, Function.update_self] at hplan'
      cases hplan'
    · rw [Function.update_of_ne hslot] at hplan'
      exact h.plans slot' plan' hplan'
  · refine queued_setRuntime (s := s.setPlan slot none) h.queued fun hook hhook ↦ ?_
    rcases List.mem_append.mp hhook with hhook | hhook
    · exact h.queued plan.runtime hook hhook
    · exact hpending hook hhook

theorem drained (h : s.Sound) {runtime : RuntimeId} {status : Status} {results : List HookResult}
    {ledger : Ledger} {runtime' : Runtime} {w' : World ε}
    (hcall : drainPending engines runtime (s.runtimes runtime) s.world =
      (status, results, ledger, runtime', w')) :
    ((s.setRuntime runtime runtime').setWorld w').Sound := by
  rcases drainPending_cases engines runtime (s.runtimes runtime) s.world with
    ⟨_, _, heq, hworld⟩ | ⟨w₁, _, _, _, _, _, heq, hran⟩
  · cases hcall.symm.trans heq
    refine ⟨h.toAccounts.quiet ?_ hworld, h.plans, queued_setRuntime h.queued (h.queued runtime)⟩
    rw [held_setWorld, held_setRuntime]
    exact Function.update_eq_self (Place.queue runtime) s.held
  · cases hcall.symm.trans heq
    obtain ⟨hsub, hkept, hadds⟩ := drainLoop_accounted runtime
      (s.runtimes runtime).ownerId (s.runtimes runtime).pending .empty w₁
      (h.nodup (.queue runtime)) fun hook hhook ↦ by
        rw [hran.before.history_eq]
        exact ⟨h.accounted (.queue runtime) hook hhook, h.queued runtime hook hhook⟩
    obtain ⟨artifacts, rfl⟩ := hran.runtimeAfter
    refine ⟨h.toAccounts.touch (held_setRuntime s runtime _) hsub ?_ fun hook hhook ↦ ?_, h.plans,
      queued_setRuntime h.queued fun hook hhook ↦ (hkept hook hhook).2⟩
    · exact ((hran.before.toAdds.mono fun _ ↦ False.elim).trans hadds).trans
        (hran.after.toAdds.mono fun _ ↦ False.elim)
    · rw [setWorld_world, hran.after.history_eq]
      exact (hkept hook hhook).1

theorem freed (h : s.Sound) {runtime : RuntimeId} {runtime' : Runtime} {w' : World ε}
    (hcall : freePendingHooks engines (s.runtimes runtime) s.world = (runtime', w')) :
    ((s.setRuntime runtime runtime').setWorld w').Sound := by
  have hquiet := @freePendingHooks_quiet _ engines (s.runtimes runtime) s.world
  rw [hcall] at hquiet
  have hpending : runtime'.pending = [] := by
    rw [freePendingHooks] at hcall
    cases hcall
    rfl
  refine ⟨h.toAccounts.touch (held_setRuntime s runtime runtime') ?_
    (hquiet.toAdds.mono fun e he id hid ↦ ?_) fun hook hhook ↦ ?_, h.plans,
    queued_setRuntime h.queued fun hook hhook ↦ ?_⟩
  · rw [hpending]
    exact List.nil_sublist _
  · rw [he.about] at hid
    cases hid
  · rw [hpending] at hhook
    exact absurd hhook List.not_mem_nil
  · rw [hpending] at hhook
    exact absurd hhook List.not_mem_nil

/-- **Every call keeps the invariant.** -/
theorem stepped (h : s.Sound) {op : Op ε} {s' : System ε} (hstep : Stepped engines s op s') :
    s'.Sound := by
  cases hstep with
  | @idle _ w' runtimes' hquiet hpending =>
    refine ⟨h.toAccounts.quiet ?_ hquiet, h.plans, fun id hook hhook ↦ ?_⟩
    · funext place
      cases place with
      | slot slot => rfl
      | queue id => exact hpending id
    · exact h.queued id hook (hpending id ▸ hhook)
  | drafted hbefore _ hhooks hquiet => exact h.drafted hbefore hhooks hquiet
  | analyzed hplan hbefore _ _ hhooks hquiet => exact h.analyzed hplan hbefore hhooks hquiet
  | prepared hplan hcall => exact h.prepared hplan hcall
  | committed hplan hcall => exact h.committed hplan hcall
  | released hplan hcall => exact h.released hplan hcall
  | drained hcall => exact h.drained hcall
  | freed hcall => exact h.freed hcall

end Sound

/-- **In every run the history accounts for the hooks.** -/
theorem run_sound (engines : EngineRef → Engine ε) (stripCode : Ptr → Ptr) {s : System ε}
    (hstart : s.Initial) (ops : List (Op ε)) : (s.run engines stripCode ops).Sound :=
  run_invariant Sound (fun s op h ↦ h.stepped (step_stepped engines stripCode s op)) s ops
    hstart.sound

end System

/-! ## Statements about the process that look at the hooks -/

section World

variable {I : World ε → Prop}

/-- What every pass over accounted hooks keeps, a commit keeps. -/
theorem commitPlan_sound_world (hquiet : ∀ w w', w.Quiet (fun _ ↦ False) w' → I w → I w')
    (hpass : ∀ plan st flow, (∀ hook ∈ st.hooks, hook.Accounted st.world.history) →
      CommitPass engines plan st flow → I st.world → I flow.state.world)
    {runtime runtime' : Runtime} {plan plan' : Plan} {status : Status} {w w' : World ε}
    (hcall : commitPlan engines runtime plan w = (status, plan', runtime', w'))
    (hids : (plan.hooks.map Hook.hookId).Nodup)
    (hacc : ∀ hook ∈ plan.hooks, hook.Accounted w.history) (h : I w) : I w' := by
  rcases commitPlan_cases engines runtime plan w with
    ⟨_, _, _, heq, hworld⟩ | ⟨order, w₁, _, _, _, _, heq, hran⟩
  · cases hcall.symm.trans heq
    exact hquiet _ _ hworld h
  · cases hcall.symm.trans heq
    have hvalid : ∀ i ∈ order, i < plan.hooks.length := fun i hi ↦ (hran.prepared i hi).lt
    have hstart : (CommitState.start plan.hooks w₁).Sound plan.hooks w₁ := by
      refine ⟨Pointwise.refl .refl _, fun hook hhook ↦ ?_, .refl w₁⟩
      show hook.Accounted w₁.history
      rw [hran.before.history_eq]
      exact hacc hook hhook
    have hboth := @commitLoop_induction _ engines (plan.toCommit runtime order) _ _
      (fun st ↦ st.Sound plan.hooks w₁ ∧ I st.world) hran.nodup hvalid
      ⟨hstart, hquiet _ _ hran.before h⟩ fun st _ flow hst hp ↦
        ⟨hst.1.pass hp hran.nodup hvalid hids, hpass _ st flow hst.1.accounted hp hst.2⟩
    exact hquiet _ _ hran.after hboth.2

/-- **The rule for statements about the process**, where the calls may meet a condition and the
hooks are accounted for. -/
theorem System.sound_world_invariant {stripCode : Ptr → Ptr} {s : System ε} {ops : List (Op ε)}
    (cond : System ε → Op ε → Prop)
    (hquiet : ∀ w w', w.Quiet Event.preparing w' → I w → I w')
    (hpass : ∀ plan st flow, (∀ hook ∈ st.hooks, hook.Accounted st.world.history) →
      CommitPass engines plan st flow → I st.world → I flow.state.world)
    (hdrain : ∀ s runtime status results ledger runtime' w', System.Sound s →
      cond s (.drain runtime) → drainPending engines runtime (s.runtimes runtime) s.world =
        (status, results, ledger, runtime', w') → I s.world → I w')
    (hstart : s.Initial) (hI : I s.world) (hmeets : Meets engines stripCode cond s ops) :
    I (s.run engines stripCode ops).world := by
  have hsilent : ∀ w w', w.Quiet (fun _ ↦ False) w' → I w → I w' :=
    fun w w' h ↦ hquiet w w' (h.mono fun _ ↦ False.elim)
  refine (hmeets.invariant (fun s ↦ s.Sound ∧ I s.world) (fun s op h hop ↦ ?_)
    ⟨hstart.sound, hI⟩).2
  obtain ⟨hsound, hI⟩ := h
  have hstep := step_stepped engines stripCode s op
  refine ⟨hsound.stepped hstep, ?_⟩
  generalize s.step engines stripCode op = s' at hstep ⊢
  cases hstep with
  | idle h => exact hsilent _ _ h hI
  | drafted _ _ _ h => exact hsilent _ _ h hI
  | analyzed _ _ _ _ _ h => exact hsilent _ _ h hI
  | @prepared slot plan _ _ _ hplan hcall =>
    have h := (preparePlan_spec engines plan s.world).1
    rw [hcall] at h
    exact hquiet _ _ (h.mono fun _ ↦ Event.ofPrepare.preparing) hI
  | committed hplan hcall =>
    exact commitPlan_sound_world hsilent hpass hcall (hsound.nodup_plan hplan)
      (hsound.accounted_plan hplan) hI
  | @released slot plan _ _ hplan hcall =>
    have h := (releaseHooks_spec engines plan.hooks (s.runtimes plan.runtime) s.world).2
    rw [← releasePlan, hcall] at h
    exact hquiet _ _ (h.mono fun _ ↦ Event.ofState.preparing) hI
  | drained hcall => exact hdrain s _ _ _ _ _ _ hsound hop hcall hI
  | @freed runtime _ _ hcall =>
    have h := @freePendingHooks_quiet _ engines (s.runtimes runtime) s.world
    rw [hcall] at h
    exact hquiet _ _ (h.mono fun _ ↦ Event.ofState.preparing) hI

end World

end HookKit
