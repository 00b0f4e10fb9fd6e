import HookKit.Plan.LocalCommit

/-!
# The frame of a run

What a run never touches.  Over engines that keep to their targets, a place that has changed after
any sequence of calls, on any number of plans and runtimes, is in the region of a target that the
history tells was settled with a mutation.

* `Event.Mutates` — the settled hooks that a place is in the region of.
* `Hook.Keyed` — a hook's key is the key of its target, at all times.
* `System.run_framed` — the frame.
-/

set_option autoImplicit false

namespace HookKit

open Footprint Loop

variable {ε α β : Type}

/-- The event is the settling of a hook that may have changed the place: its outcome owns up to a
mutation, and the place is in the region of a target with the hook's key. -/
def Event.Mutates (stripCode : Ptr → Ptr) (region : Target → Set α) (e : Event) (a : α) : Prop :=
  ∃ settled target, e = .commitSettled settled ∧ settled.outcome.mutated = true ∧
    targetKey stripCode target = some settled.key ∧ a ∈ region target

/-- The key of the hook is the key of its target. -/
def Hook.Keyed (stripCode : Ptr → Ptr) (h : Hook) : Prop :=
  HookKit.targetKey stripCode h.spec.target = some h.targetKey

theorem Hook.Same.keyed {stripCode : Ptr → Ptr} {h h' : Hook} (hsame : h.Same h')
    (hkeyed : h.Keyed stripCode) : h'.Keyed stripCode := by
  rw [Hook.Keyed, hsame.spec, hsame.targetKey]
  exact hkeyed

/-- From `w` to `w'` every change is accounted for by the history of `w'`. -/
def World.Framed (view : ε → α → β) (stripCode : Ptr → Ptr) (region : Target → Set α)
    (w w' : World ε) : Prop :=
  Accounted (Event.Mutates stripCode region) w.history w'.history (w.shows view) (w'.shows view)

variable {view : ε → α → β} {region : Target → Set α} {engines : EngineRef → Engine ε}
  {stripCode : Ptr → Ptr}

theorem World.Adds.framed {Q : Event → Prop} {w w' : World ε} (h : w.Adds Q w')
    (stripCode : Ptr → Ptr) (region : Target → Set α) (hshows : w'.shows view = w.shows view) :
    w.Framed view stripCode region w' :=
  .quiet (fun _ ↦ h.history.mem_old) hshows

/-- A hook that answers for a change is settled with its key. -/
theorem AnswersFor.mutates {hooks after : List Hook} {history : List Event} {a : α}
    (h : AnswersFor engines region hooks after history a)
    (hkeyed : ∀ hook ∈ hooks, hook.Keyed stripCode) :
    ∃ e ∈ history, e.Mutates stripCode region a := by
  obtain ⟨hook, hhook, hook', -, hsame, hregion, hmutated, path, required, published, hmem⟩ := h
  refine ⟨_, hmem, _, hook.spec.target, rfl, hmutated, ?_, hregion⟩
  show targetKey stripCode hook.spec.target = some hook'.targetKey
  rw [hsame.targetKey]
  exact hkeyed hook hhook

/-! ## Calls that go to engines -/

section Calls

variable (hlocal : ∀ ref, (engines ref).Local view region)

include hlocal

theorem commitLoop_framed (plan : CommitPlan) {hooks : List Hook} (hnodup : plan.order.Nodup)
    (hvalid : ∀ i ∈ plan.order, i < hooks.length)
    (hkeyed : ∀ hook ∈ hooks, hook.Keyed stripCode) (w : World ε) :
    (∀ hook ∈ (commitLoop engines plan hooks w).state.hooks, hook.Keyed stripCode) ∧
      w.Framed view stripCode region (commitLoop engines plan hooks w).state.world := by
  refine And.right (run_invariant (fun st : CommitState ε ↦ st.hooks.length = hooks.length ∧
    (∀ hook ∈ st.hooks, hook.Keyed stripCode) ∧ w.Framed view stripCode region st.world) ?_ _
    ⟨rfl, hkeyed, .refl _ _⟩)
  rintro st - ⟨hlength, hkeyed, hframed⟩
  obtain ⟨hpass, hlength'⟩ := @commitIter_pass_of_length _ engines _ _ hnodup hvalid _ hlength
  have hcommits := hpass.commits (fun i hi ↦ hlength ▸ hvalid i hi) hnodup
  refine ⟨hlength', fun hook' hhook' ↦ ?_, hframed.trans
    ⟨fun _ ↦ hpass.adds.history.mem_old, fun a ha ↦ ?_⟩⟩
  · obtain ⟨hook, hhook, hcommit⟩ := Pointwise.mem_right hcommits hhook'
    exact hcommit.toSame.keyed (hkeyed hook hhook)
  · exact (commitIter_changes hlocal plan st (fun i hi ↦ hlength ▸ hvalid i hi) hnodup
      ha).mutates hkeyed

omit hlocal in
theorem buildCommitOrder_shows (view : ε → α → β) (domains : List Domain) (hooks : List Hook)
    (w : World ε) : (buildCommitOrder domains hooks w).2.shows view = w.shows view := by
  rw [buildCommitOrder]
  split
  · rfl
  have hfirst := w.alloc_shows view
  split <;> rename_i heq <;> rw [heq] at hfirst
  · exact hfirst
  rename_i w₁
  split
  · exact hfirst
  have hsecond := w₁.alloc_shows view
  split <;> rename_i heq <;> rw [heq] at hsecond <;> exact hsecond.trans hfirst

omit hlocal in
theorem allocCommit_shows (view : ε → α → β) (plan : Plan) (w : World ε) :
    (allocCommit plan w).2.shows view = w.shows view := by
  have hfirst : (if plan.hooks.length > 0 then w.alloc else (true, w)).2.shows view =
      w.shows view := by
    split
    · exact w.alloc_shows view
    · rfl
  rw [allocCommit]
  split <;> rename_i heq <;> rw [heq] at hfirst
  · exact hfirst
  rename_i w₁
  have hsecond := w₁.alloc_shows view
  split <;> rename_i heq <;> rw [heq] at hsecond
  · exact hsecond.trans hfirst
  · exact (buildCommitOrder_shows view _ _ _).trans (hsecond.trans hfirst)

/-- **A call of `hk_plan_commit`.** -/
theorem commitPlan_framed (runtime : Runtime) (plan : Plan)
    (hkeyed : ∀ hook ∈ plan.hooks, hook.Keyed stripCode) (w : World ε) :
    (∀ hook ∈ (commitPlan engines runtime plan w).2.1.hooks, hook.Keyed stripCode) ∧
      w.Framed view stripCode region (commitPlan engines runtime plan w).2.2.2 := by
  rw [commitPlan]
  split
  · exact ⟨hkeyed, .refl _ _⟩
  obtain ⟨hquiet, horder⟩ := allocCommit_spec (Q := fun _ ↦ False) plan w
  have hshows := allocCommit_shows view plan w
  generalize allocCommit plan w = allocated at hquiet horder hshows ⊢
  obtain ⟨order?, w₁⟩ := allocated
  have hbefore : w.Framed view stripCode region w₁ := hquiet.toAdds.framed stripCode region hshows
  cases order? with
  | none => exact ⟨hkeyed, hbefore⟩
  | some order =>
    obtain ⟨hnodup, hprepared⟩ := horder order rfl
    have hvalid : ∀ i ∈ order, i < plan.hooks.length := by
      intro i hi
      obtain ⟨hook, hget, -⟩ := hprepared i hi
      exact (List.getElem?_eq_some_iff.mp hget).1
    obtain ⟨hkept, hloop⟩ := commitLoop_framed hlocal
      ⟨plan.planId, runtime.ownerId, plan.runtime, plan.domains, order⟩ hnodup hvalid hkeyed w₁
    dsimp only
    generalize commitLoop engines ⟨plan.planId, runtime.ownerId, plan.runtime, plan.domains, order⟩
      plan.hooks w₁ = looped at hkept hloop ⊢
    cases looped with
    | stop st => exact ⟨hkept, hbefore.trans hloop⟩
    | next st =>
      have hreport := (createReport_quiet (Q := fun _ ↦ False) plan.hooks.length
        st.world).toAdds.framed stripCode region
        (createReport_shows view plan.hooks.length st.world)
      dsimp only
      generalize createReport plan.hooks.length st.world = report at hreport ⊢
      obtain ⟨ok, w₂⟩ := report
      cases ok with
      | false => exact ⟨hkept, (hbefore.trans hloop).trans hreport⟩
      | true =>
        have hpublish := (publishArtifacts_spec (Q := fun _ ↦ False) runtime st.ledger
          w₂).2.toAdds.framed stripCode region (publishArtifacts_shows view runtime st.ledger w₂)
        exact ⟨hkept, ((hbefore.trans hloop).trans hreport).trans hpublish⟩

/-- Whatever a call of `hk_plan_commit` changes is in the region of a hook that it leaves settled
with a mutation. -/
theorem commitPlan_answers (runtime : Runtime) (plan : Plan) (w : World ε) {a : α}
    (h : (commitPlan engines runtime plan w).2.2.2.shows view a ≠ w.shows view a) :
    ∃ hook ∈ (commitPlan engines runtime plan w).2.1.hooks,
      a ∈ region hook.spec.target ∧ hook.result.outcome.mutated = true := by
  revert h
  rw [commitPlan]
  split
  · exact fun h ↦ absurd rfl h
  have horder := (allocCommit_spec (Q := fun _ ↦ False) plan w).2
  have hshows := allocCommit_shows view plan w
  generalize allocCommit plan w = allocated at horder hshows ⊢
  obtain ⟨order?, w₁⟩ := allocated
  cases order? with
  | none => exact fun h ↦ absurd (congrFun hshows a) h
  | some order =>
    obtain ⟨hnodup, hprepared⟩ := horder order rfl
    have hvalid : ∀ i ∈ order, i < plan.hooks.length := by
      intro i hi
      obtain ⟨hook, hget, -⟩ := hprepared i hi
      exact (List.getElem?_eq_some_iff.mp hget).1
    have hloop := @commitLoop_answers _ _ _ _ _ _ hlocal
      ⟨plan.planId, runtime.ownerId, plan.runtime, plan.domains, order⟩ plan.hooks hnodup
      hvalid w₁ a
    dsimp only at hshows ⊢
    rw [hshows] at hloop
    generalize commitLoop engines ⟨plan.planId, runtime.ownerId, plan.runtime, plan.domains, order⟩
      plan.hooks w₁ = looped at hloop ⊢
    cases looped with
    | stop st => exact hloop
    | next st =>
      have hreport := createReport_shows view plan.hooks.length st.world
      dsimp only
      generalize createReport plan.hooks.length st.world = report at hreport ⊢
      obtain ⟨ok, w₂⟩ := report
      dsimp only at hreport
      cases ok with
      | false => exact fun h ↦ hloop (hreport ▸ h)
      | true =>
        have hpublish := publishArtifacts_shows view runtime st.ledger w₂
        exact fun h ↦ hloop (hreport ▸ hpublish ▸ h)

omit hlocal in
/-- Every hook a call of `hk_plan_commit` changes is written down as it is left. -/
theorem commitPlan_recorded (runtime : Runtime) (plan : Plan) (w : World ε) :
    List.Forall₂ Hook.Commits plan.hooks (commitPlan engines runtime plan w).2.1.hooks ∧
      ∀ hook ∈ (commitPlan engines runtime plan w).2.1.hooks, hook ∈ plan.hooks ∨
        hook.Recorded engines (commitPlan engines runtime plan w).2.2.2.history := by
  rcases commitPlan_cases engines runtime plan w with
    ⟨_, _, _, heq, -⟩ | ⟨order, w₁, _, _, _, _, heq, hran⟩
  · rw [heq]
    exact ⟨Pointwise.refl .refl _, fun _ ↦ .inl⟩
  · obtain ⟨state, hplan, -⟩ := hran.planAfter
    have hvalid : ∀ i ∈ order, i < plan.hooks.length := by
      intro i hi
      obtain ⟨hook, hget, -⟩ := hran.prepared i hi
      exact (List.getElem?_eq_some_iff.mp hget).1
    rw [heq, hplan]
    dsimp only
    rw [hran.after.history_eq]
    refine And.right (run_invariant (fun st : CommitState ε ↦ st.hooks.length = plan.hooks.length ∧
      List.Forall₂ Hook.Commits plan.hooks st.hooks ∧ ∀ hook ∈ st.hooks, hook ∈ plan.hooks ∨
        hook.Recorded engines st.world.history) ?_ _ ⟨rfl, Pointwise.refl .refl _, fun _ ↦ .inl⟩)
    rintro st - ⟨hlength, hcommits, hrecorded⟩
    obtain ⟨hpass, hlength'⟩ := @commitIter_pass_of_length _ engines (plan.toCommit runtime order) _
      hran.nodup hvalid _ hlength
    refine ⟨hlength', Pointwise.trans (fun _ _ _ ↦ .trans) hcommits
      (hpass.commits (fun i hi ↦ hlength ▸ hvalid i hi) hran.nodup), fun hook hhook ↦ ?_⟩
    rcases hpass.recorded hook hhook with hold | hnew
    · rcases hrecorded hook hold with hold | ⟨path, required, published, hmem⟩
      · exact .inl hold
      · exact .inr ⟨path, required, published, hpass.adds.history.mem_old hmem⟩
    · exact .inr hnew

theorem drainLoop_framed (runtime : RuntimeId) (ownerId : Id) {hooks : List Hook}
    (hkeyed : ∀ hook ∈ hooks, hook.Keyed stripCode) (ledger : Ledger) (w : World ε) :
    w.Framed view stripCode region (drainLoop engines runtime ownerId hooks ledger w).2.2 := by
  induction hooks generalizing ledger w with
  | nil => exact .refl _ _
  | cons hook rest ih =>
    have hadds := (drainOne_pass engines runtime ownerId hook ledger w).adds
    have hfirst : w.Framed view stripCode region
        (drainOne engines runtime ownerId hook ledger w).2.2 := by
      refine ⟨fun _ ↦ hadds.history.mem_old, fun a ha ↦ ?_⟩
      obtain ⟨hook', hanswers⟩ := drainOne_changes hlocal runtime ownerId hook ledger w ha
      exact hanswers.mutates fun h hh ↦
        hkeyed h (List.mem_singleton.mp hh ▸ List.mem_cons_self)
    exact hfirst.trans (ih (fun h hh ↦ hkeyed h (List.mem_cons_of_mem hook hh)) _ _)

/-- **A call of `hk_runtime_drain_pending`.** -/
theorem drainPending_framed (runtimeId : RuntimeId) (runtime : Runtime)
    (hkeyed : ∀ hook ∈ runtime.pending, hook.Keyed stripCode) (w : World ε) :
    (∀ hook ∈ (drainPending engines runtimeId runtime w).2.2.2.1.pending,
        hook.Keyed stripCode) ∧
      w.Framed view stripCode region (drainPending engines runtimeId runtime w).2.2.2.2 := by
  rw [drainPending]
  split
  · exact ⟨hkeyed, .refl _ _⟩
  have hfirst := (World.quiet_alloc (Q := fun _ ↦ False) w).toAdds.framed stripCode region
    (w.alloc_shows view)
  generalize w.alloc = first at hfirst ⊢
  obtain ⟨ok, w₁⟩ := first
  cases ok with
  | false => exact ⟨hkeyed, hfirst⟩
  | true =>
  have hsecond := (World.quiet_alloc (Q := fun _ ↦ False) w₁).toAdds.framed
    stripCode region (w₁.alloc_shows view)
  dsimp only
  generalize w₁.alloc = second at hsecond ⊢
  obtain ⟨ok', w₂⟩ := second
  cases ok' with
  | false => exact ⟨hkeyed, hfirst.trans hsecond⟩
  | true =>
  obtain ⟨from_, hsub, hkept⟩ := drainLoop_kept engines runtimeId runtime.ownerId runtime.pending
    .empty w₂
  have hloop := drainLoop_framed hlocal runtimeId runtime.ownerId hkeyed .empty w₂
  dsimp only
  generalize drainLoop engines runtimeId runtime.ownerId runtime.pending .empty w₂ = looped
    at hkept hloop ⊢
  obtain ⟨drained, ledger, w₃⟩ := looped
  -- whoever stays in the queue is who he was
  have hkeyed' : ∀ hook ∈ drained.filterMap Drained.kept, hook.Keyed stripCode := by
    intro hook' hhook'
    obtain ⟨hook, hhook, hsame, -⟩ := Pointwise.mem_right hkept hhook'
    exact hsame.keyed (hkeyed hook (hsub.subset hhook))
  have hreport := (createReport_quiet (Q := fun _ ↦ False) (drained.map Drained.result).length
    w₃).toAdds.framed stripCode region (createReport_shows view _ w₃)
  dsimp only
  generalize createReport (drained.map Drained.result).length w₃ = report at hreport ⊢
  obtain ⟨ok'', w₄⟩ := report
  cases ok'' with
  | false => exact ⟨hkeyed', ((hfirst.trans hsecond).trans hloop).trans hreport⟩
  | true =>
    obtain ⟨⟨artifacts, hruntime⟩, hquiet⟩ := publishArtifacts_spec (Q := fun _ ↦ False)
      { runtime with pending := drained.filterMap Drained.kept } ledger w₄
    have hpublish := hquiet.toAdds.framed stripCode region (publishArtifacts_shows view _ ledger w₄)
    dsimp only
    refine ⟨?_, ?_⟩
    · rw [hruntime]
      exact hkeyed'
    · exact (((hfirst.trans hsecond).trans hloop).trans hreport).trans hpublish

end Calls

/-! ## Keys -/

/-- A hook is added with the key of its target. -/
theorem addHook_keyed {plan : Plan} (spec : HookSpec) (w : World ε)
    (hkeyed : ∀ hook ∈ plan.hooks, hook.Keyed stripCode) :
    ∀ hook ∈ (addHook stripCode plan spec w).2.1.hooks, hook.Keyed stripCode := by
  rw [addHook]
  split
  · exact hkeyed
  split
  · exact hkeyed
  split
  · exact hkeyed
  split
  · exact hkeyed
  rename_i target env _
  cases hkey : targetKeyCopy stripCode target env with
  | mk key? env₁ =>
    cases key? with
    | none => exact hkeyed
    | some key =>
      have htarget : targetKey stripCode target = some key := by
        rw [targetKeyCopy] at hkey
        split at hkey
        · cases hkey
        · exact congrArg Prod.fst hkey
      dsimp only
      split
      · exact hkeyed
      split
      · exact hkeyed
      split
      · exact hkeyed
      · intro hook hhook
        rcases List.mem_append.mp hhook with h | h
        · exact hkeyed hook h
        · rw [List.mem_singleton.mp h]
          exact htarget

theorem analyzeOne_keyed (runtime : Runtime) (runtimeId : RuntimeId) (planId : Id) {hook : Hook}
    (hkeyed : hook.Keyed stripCode) (env : Env ε) :
    (analyzeOne engines runtime runtimeId planId hook env).1.Keyed stripCode := by
  rw [analyzeOne]
  dsimp only
  split <;> exact hkeyed

/-- What the analysis of a hook keeps, the analysis of a plan keeps. -/
theorem analyzePlan_each {P : Hook → Prop} {runtime : Runtime} {plan : Plan}
    (hone : ∀ hook env, P hook →
      P (analyzeOne engines runtime plan.runtime plan.planId hook env).1)
    (hhooks : ∀ hook ∈ plan.hooks, P hook) (w : World ε) :
    ∀ hook ∈ (analyzePlan engines runtime plan w).2.1.hooks, P hook := by
  have hall : ∀ (hooks : List Hook) (env : Env ε), (∀ hook ∈ hooks, P hook) →
      ∀ hook ∈ (analyzeHooks engines runtime plan.runtime plan.planId hooks env).1, P hook := by
    intro hooks
    induction hooks with
    | nil => exact fun _ h ↦ h
    | cons hook rest ih =>
      intro env h
      obtain ⟨hhook, hrest⟩ := List.forall_mem_cons.mp h
      exact List.forall_mem_cons.mpr ⟨hone hook env hhook, ih _ hrest⟩
  rw [analyzePlan]
  split
  · exact hhooks
  split
  · exact hhooks
  dsimp only
  split <;> exact hall _ _ hhooks

theorem commitPlan_pending (runtime : Runtime) (plan : Plan) (w : World ε) :
    (commitPlan engines runtime plan w).2.2.1.pending = runtime.pending := by
  rcases commitPlan_cases engines runtime plan w with
    ⟨_, _, -, heq, -⟩ | ⟨_, _, _, _, _, _, heq, hran⟩ <;> rw [heq]
  obtain ⟨artifacts, hruntime⟩ := hran.runtimeAfter
  rw [hruntime]

theorem releasePlan_pending {P : Hook → Prop} {runtime : Runtime} {plan : Plan}
    (hpending : ∀ hook ∈ runtime.pending, P hook) (hhooks : ∀ hook ∈ plan.hooks, P hook)
    (w : World ε) : ∀ hook ∈ (releasePlan engines runtime plan w).1.pending, P hook := by
  obtain ⟨adopted, capacity, heq, hsub, -⟩ := (releaseHooks_spec engines plan.hooks runtime w).1
  rw [releasePlan, heq]
  intro hook hhook
  rcases List.mem_append.mp hhook with h | h
  · exact hpending hook h
  · exact hhooks hook (hsub.subset h)

/-! ## Runs -/

/-- Nothing outside of HookKit changes what is looked at. -/
def Op.Blind (view : ε → α → β) : Op ε → Prop
  | .outside change => ∀ env, view (change env).host = view env.host
  | _ => True

namespace System

/-- Every hook, wherever it is, satisfies `P`. -/
def Everywhere (P : Hook → Prop) (held : Place → List Hook) : Prop :=
  ∀ place, ∀ hook ∈ held place, P hook

theorem Everywhere.update {P : Hook → Prop} {held : Place → List Hook} (h : Everywhere P held)
    (place : Place) {hooks : List Hook} (hhooks : ∀ hook ∈ hooks, P hook) :
    Everywhere P (Function.update held place hooks) := by
  intro other
  by_cases heq : other = place
  · subst heq
    rw [Function.update_self]
    exact hhooks
  · rw [Function.update_of_ne heq]
    exact h other

theorem Everywhere.plan {P : Hook → Prop} {s : System ε} (h : Everywhere P s.held) {slot : Nat}
    {plan : Plan} (hplan : s.plans slot = some plan) : ∀ hook ∈ plan.hooks, P hook := by
  intro hook hhook
  refine h (.slot slot) hook ?_
  rw [held, planHooks_some hplan]
  exact hhook

/-- Before anything is planned there is no hook. -/
theorem Initial.everywhere {s : System ε} (hstart : s.Initial) (P : Hook → Prop) :
    Everywhere P s.held := by
  intro place hook hhook
  cases place with
  | slot slot => simp [held, planHooks, hstart.plans slot] at hhook
  | queue runtime => simp [held, hstart.pending runtime] at hhook

section Step

variable {s : System ε} (hkeyed : Everywhere (Hook.Keyed stripCode) s.held)

include hkeyed

/-- A call on the plan in a slot. -/
theorem onPlan_framed (slot : Nat) {f : Plan → System ε}
    (hf : ∀ plan, s.plans slot = some plan → (∀ hook ∈ plan.hooks, hook.Keyed stripCode) →
      Everywhere (Hook.Keyed stripCode) (f plan).held ∧
        s.world.Framed view stripCode region (f plan).world) :
    Everywhere (Hook.Keyed stripCode) (s.onPlan slot f).held ∧
      s.world.Framed view stripCode region (s.onPlan slot f).world := by
  rw [onPlan]
  split
  · exact ⟨hkeyed, .refl _ _⟩
  · rename_i plan hplan
    exact hf plan hplan (hkeyed.plan hplan)

/-- **One call.** -/
theorem step_framed (hlocal : ∀ ref, (engines ref).Local view region) {op : Op ε}
    (hop : op.Blind view) :
    Everywhere (Hook.Keyed stripCode) (s.step engines stripCode op).held ∧
      s.world.Framed view stripCode region (s.step engines stripCode op).world := by
  cases op with
  | createPlan slot runtime =>
    obtain ⟨hquiet, hnew⟩ := createPlan_spec runtime s.world
    have hframed := hquiet.toAdds.framed stripCode region (createPlan_shows view runtime s.world)
    rw [step]
    split
    · exact ⟨hkeyed, .refl _ _⟩
    · split <;> rename_i heq <;> rw [heq] at hframed hnew
      · refine ⟨?_, hframed⟩
        rw [held_setWorld, held_setPlan, Option.map_some, Option.getD_some, (hnew _ rfl).2]
        exact hkeyed.update _ (by simp)
      · exact ⟨hkeyed, hframed⟩
  | defineDomain slot spec =>
    refine onPlan_framed hkeyed slot fun plan hplan hhooks ↦ ?_
    obtain ⟨hquiet, hsame⟩ := defineDomain_spec plan spec s.world
    refine ⟨?_, hquiet.toAdds.framed stripCode region (defineDomain_shows view plan spec s.world)⟩
    rw [held_setWorld, held_setPlan]
    refine hkeyed.update _ ?_
    rcases hsame with heq | ⟨-, -, heq⟩
    · rw [heq]
      exact hhooks
    · rw [Option.map_some, Option.getD_some, heq]
      exact hhooks
  | addHook slot spec =>
    refine onPlan_framed hkeyed slot fun plan hplan hhooks ↦ ?_
    refine ⟨?_, (addHook_spec stripCode plan spec s.world).1.toAdds.framed stripCode region
      (addHook_shows view stripCode plan spec s.world)⟩
    rw [held_setWorld, held_setPlan]
    exact hkeyed.update _ (addHook_keyed spec s.world hhooks)
  | analyze slot =>
    refine onPlan_framed hkeyed slot fun plan hplan hhooks ↦ ?_
    refine ⟨?_, (analyzePlan_spec engines _ plan s.world).1.toAdds.framed stripCode region
      (analyzePlan_shows hlocal _ plan s.world)⟩
    rw [held_setWorld, held_setPlan]
    exact hkeyed.update _ (@analyzePlan_each _ _ (Hook.Keyed stripCode) _ _
      (fun _ env h ↦ analyzeOne_keyed _ _ _ h env) hhooks s.world)
  | prepare slot =>
    refine onPlan_framed hkeyed slot fun plan hplan hhooks ↦ ?_
    obtain ⟨hquiet, hooks, state, heq, hprepares, -⟩ := preparePlan_spec engines plan s.world
    refine ⟨?_, hquiet.toAdds.framed stripCode region (preparePlan_shows hlocal plan s.world)⟩
    rw [held_setWorld, held_setPlan]
    refine hkeyed.update _ ?_
    rw [heq]
    intro hook' hhook'
    obtain ⟨hook, hhook, hsame⟩ := Pointwise.mem_right hprepares hhook'
    exact hsame.toSame.keyed (hhooks hook hhook)
  | commit slot =>
    refine onPlan_framed hkeyed slot fun plan hplan hhooks ↦ ?_
    obtain ⟨hkept, hframed⟩ := commitPlan_framed hlocal (s.runtimes plan.runtime) plan hhooks
      s.world
    refine ⟨?_, hframed⟩
    rw [held_setWorld, held_setRuntime, held_setPlan]
    refine (hkeyed.update _ hkept).update _ ?_
    rw [commitPlan_pending]
    exact hkeyed (.queue plan.runtime)
  | releasePlan slot =>
    refine onPlan_framed hkeyed slot fun plan hplan hhooks ↦ ?_
    refine ⟨?_, (releaseHooks_spec engines plan.hooks _ s.world).2.toAdds.framed stripCode region
      (releaseHooks_shows hlocal plan.hooks _ s.world)⟩
    rw [held_setWorld, held_setRuntime, held_setPlan]
    refine (hkeyed.update _ (by simp)).update _ ?_
    exact releasePlan_pending (hkeyed (.queue plan.runtime)) hhooks s.world
  | drain runtime =>
    obtain ⟨hkept, hframed⟩ := drainPending_framed hlocal runtime (s.runtimes runtime)
      (hkeyed (.queue runtime)) s.world
    refine ⟨?_, hframed⟩
    rw [step, held_setWorld, held_setRuntime]
    exact hkeyed.update _ hkept
  | releaseRuntime runtime =>
    refine ⟨?_, (freePendingHooks_quiet (s.runtimes runtime) s.world).toAdds.framed stripCode region
      (freePendingHooks_shows hlocal (s.runtimes runtime) s.world)⟩
    rw [step, held_setWorld, held_setRuntime]
    exact hkeyed.update _ (by simp [freePendingHooks])
  | register runtime registered =>
    refine ⟨?_, .refl _ _⟩
    rw [step, held_setRuntime]
    exact hkeyed.update _ (hkeyed (.queue runtime))
  | outside change =>
    exact ⟨hkeyed, (World.quiet_setEnv (Q := fun _ ↦ False) s.world _).toAdds.framed stripCode
      region (hop s.world.env)⟩

end Step

/-- **The frame of a run.**  Over engines that keep to their targets, a place that has changed is in
the region of a target that was settled with a mutation. -/
theorem run_framed (hlocal : ∀ ref, (engines ref).Local view region) {s : System ε}
    (hstart : s.Initial) {ops : List (Op ε)} (hops : ∀ op ∈ ops, op.Blind view) {a : α}
    (hchanged : (s.run engines stripCode ops).world.shows view a ≠ s.world.shows view a) :
    ∃ e ∈ (s.run engines stripCode ops).world.history, e.Mutates stripCode region a := by
  have hrun : ∀ (ops : List (Op ε)) (s : System ε), (∀ op ∈ ops, op.Blind view) →
      Everywhere (Hook.Keyed stripCode) s.held →
      s.world.Framed view stripCode region (s.run engines stripCode ops).world := by
    intro ops
    induction ops with
    | nil => exact fun s _ _ ↦ .refl _ _
    | cons op rest ih =>
      intro s hops hkeyed
      obtain ⟨hkept, hframed⟩ := step_framed hkeyed hlocal (hops op List.mem_cons_self)
      exact hframed.trans (ih _ (fun op' hop' ↦ hops op' (List.mem_cons_of_mem op hop')) hkept)
  exact (hrun ops s hops (hstart.everywhere _)).changed a hchanged

end System

/-! ## A run that stores -/

/-- An engine over a memory of pointers: it commits a hook by storing the replacement at the address
of the target, and does not know any other kind of target. -/
def Engine.writing : Engine (Ptr → Ptr) :=
  { Engine.scripted (fun _ _ ↦ .ok) fun _ _ ↦ .complete with
    commitOneCtx := some fun spec _ _ env ↦
      match spec.target with
      | .address t => (⟨.complete, [], none, none⟩,
          { env with host := Function.update env.host t.address spec.replacement })
      | _ => (⟨.none, [], none, none⟩, env) }

/-- The address of an address target. -/
def Target.addresses : Target → Set Ptr
  | .address t => {t.address}
  | _ => ∅

theorem Engine.writing_local : Engine.writing.Local (fun host ↦ host) Target.addresses := by
  constructor
  case commitOneCtx =>
    rintro _ ⟨⟩ spec prepared sink env a hchanged
    cases htarget : spec.target with
    | address t =>
      simp only [htarget] at hchanged ⊢
      refine ⟨?_, by simp⟩
      by_contra hne
      exact hchanged (Function.update_of_ne hne _ _)
    | _ =>
      simp only [htarget] at hchanged
      exact absurd rfl hchanged
  all_goals simp [Engine.writing, Engine.scripted, Blind]

theorem System.run_framed_one :
    ∃ e ∈ ((System.fresh (fun _ ↦ 0) fun _ ↦ 0).run (fun _ ↦ .writing) id
        (Op.hookOne 0 (.atAddress "open" 0x1000 0x2000))).world.history,
      e.Mutates id Target.addresses 0x1000 :=
  System.run_framed (fun _ ↦ Engine.writing_local) (System.fresh_initial _ _)
    (by simp [Op.hookOne, Op.Blind]) (by decide +kernel)

end HookKit
