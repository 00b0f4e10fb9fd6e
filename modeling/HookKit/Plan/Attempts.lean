import HookKit.Plan.LedgerSteps
import HookKit.Plan.QueueSteps

/-!
# How a hook is settled

The loops of a commit and of a drain, seen from one hook: nobody asks its engine, or it is committed
by itself, or as a member of a wave.

* `HookPass`, `commitIter_hookPass` — one pass of the loop in `hk_plan_commit`.
* `commitLoop_hookPass` — the loop: a hook that is changed is changed in one pass.
* `drainVisited`, `DrainedHook` — the loop of a drain.
-/

set_option autoImplicit false

namespace HookKit

open Loop Trace

variable {ε : Type} (engines : EngineRef → Engine ε)

/-! ## One pass -/

theorem markDomainCommitPreflightFailed_hooks (generation : Nat) (domain : Id) (hooks : List Hook)
    (w : World ε) :
    (markDomainCommitPreflightFailed engines generation domain hooks w).1 = hooks.map fun hook ↦
      if hook.spec.domain = some domain ∧ hook.result.outcome = .prepared then
        { hook with result := preflightResult generation hook.result }
      else hook := by
  induction hooks generalizing w with
  | nil => rfl
  | cons hook rest ih =>
    rw [markDomainCommitPreflightFailed, List.map_cons]
    split
    · rw [settle_eq engines]
      dsimp only
      rw [ih]
    · dsimp only
      rw [ih]

/-- The pass hands no hook to an engine. -/
def Unasked (w w' : World ε) : Prop := ∀ c, ¬Since w.history w'.history (.commitCall c)

theorem World.Adds.unasked {w w' : World ε} {Q : Event → Prop} (h : w.Adds Q w')
    (hQ : ∀ c, ¬Q (.commitCall c)) : Unasked w w' := fun c hc ↦ hQ c (h.history.since hc)

/-- What a pass may make of the hook at an index. -/
inductive HookPass (engines : EngineRef → Engine ε) (plan : CommitPlan) (st st' : CommitState ε)
    (i : Nat) (hook : Hook) : Hook → Prop where
  | kept : HookPass engines plan st st' i hook hook
  /-- It is refused without a question to its engine. -/
  | unasked {out : HookResult} (hprepared : hook.result.outcome = .prepared)
      (houtcome : out.outcome = .failedSafe ∨ out.outcome = .stalePlan)
      (hunasked : Unasked st.world st'.world) :
    HookPass engines plan st st' i hook { hook with result := out }
  /-- It is committed by itself. -/
  | single {hook' : Hook} (hvisits : Visits plan st i hook)
      (hcommitted : commitOneHook engines .single plan.runtime plan.planId plan.ownerId
        hook.preparedContinuation hook hook.result st.ledger st.world =
          (hook', st'.ledger, st'.world)) :
    HookPass engines plan st st' i hook hook'
  /-- It is a member of a wave. -/
  | member {count n : Nat} {m m' : Member} {l : Ledger} {w : World ε} {hook' : Hook}
      (hwave : WavePass engines plan count st st')
      (hindex : ((plan.order.drop st.position).take count)[n]? = some i)
      (hsettled : SettledMember engines plan count st n hook m m' l w hook') :
    HookPass engines plan st st' i hook hook'

/-- A hook that is written back is a settled one. -/
theorem writeBack_some {hooks : List Hook} {order : List Nat} {settled : List Hook}
    (hnodup : order.Nodup) (hlength : settled.length = order.length) {i : Nat} {hook' : Hook}
    (h : (writeBack hooks order settled)[i]? = some hook') :
    hooks[i]? = some hook' ∧ i ∉ order ∨
      ∃ n : Nat, order[n]? = some i ∧ settled[n]? = some hook' := by
  induction order generalizing hooks settled with
  | nil => exact .inl ⟨by cases settled <;> exact h, List.not_mem_nil⟩
  | cons j rest ih =>
    cases settled with
    | nil => cases hlength
    | cons first settled =>
      rw [List.nodup_cons] at hnodup
      rw [writeBack] at h
      rcases ih hnodup.2 (Nat.succ.inj hlength) h with ⟨hget, hi⟩ | ⟨n, horder, hsettled⟩
      · by_cases hij : j = i
        · subst hij
          refine .inr ⟨0, rfl, ?_⟩
          rw [List.getElem?_set_self'] at hget
          obtain ⟨_, _, rfl⟩ := Option.map_eq_some_iff.mp hget
          rfl
        · rw [List.getElem?_set_ne hij] at hget
          exact .inl ⟨hget, List.not_mem_cons_of_ne_of_not_mem (Ne.symm hij) hi⟩
      · exact .inr ⟨n + 1, horder, hsettled⟩

theorem hooksAt_getElem? {hooks : List Hook} {order : List Nat}
    (hvalid : ∀ i ∈ order, i < hooks.length) (n : Nat) :
    (hooksAt hooks order)[n]? = order[n]?.bind fun i ↦ hooks[i]? := by
  induction order generalizing n with
  | nil => simp [hooksAt]
  | cons i rest ih =>
    rw [hooksAt_cons (List.getElem?_eq_getElem (hvalid i List.mem_cons_self))]
    cases n with
    | zero => simp [hvalid i List.mem_cons_self]
    | succ n => exact ih (fun j hj ↦ hvalid j (List.mem_cons_of_mem i hj)) n

theorem hooksAt_length {hooks : List Hook} {order : List Nat}
    (hvalid : ∀ i ∈ order, i < hooks.length) : (hooksAt hooks order).length = order.length := by
  induction order with
  | nil => rfl
  | cons i rest ih =>
    rw [hooksAt_cons (List.getElem?_eq_getElem (hvalid i List.mem_cons_self)), List.length_cons,
      ih fun j hj ↦ hvalid j (List.mem_cons_of_mem i hj), List.length_cons]

@[simp] theorem CommitState.settled_hooks (st : CommitState ε) (index : Nat) (hook : Hook)
    (ledger : Ledger) (w : World ε) :
    (st.settled index hook ledger w).hooks = st.hooks.set index hook := rfl

@[simp] theorem CommitState.settled_world (st : CommitState ε) (index : Nat) (hook : Hook)
    (ledger : Ledger) (w : World ε) : (st.settled index hook ledger w).world = w := rfl

@[simp] theorem CommitState.settled_ledger (st : CommitState ε) (index : Nat) (hook : Hook)
    (ledger : Ledger) (w : World ε) : (st.settled index hook ledger w).ledger = ledger := rfl

section Pass

variable {plan : CommitPlan} {st : CommitState ε} {i : Nat} {hook hook' : Hook}

/-- A wave. -/
theorem commitGroup_hookPass {count : Nat} {st' : CommitState ε}
    (hvalid : ∀ i ∈ plan.order, i < st.hooks.length) (hnodup : plan.order.Nodup)
    (hwave : WavePass engines plan count st st') (hget : st.hooks[i]? = some hook)
    (hget' : st'.hooks[i]? = some hook') : HookPass engines plan st st' i hook hook' := by
  have hvalid' : ∀ i ∈ (plan.order.drop st.position).take count, i < st.hooks.length :=
    fun i hi ↦ hvalid i (List.mem_of_mem_drop (List.mem_of_mem_take hi))
  have hlength := (waveSettled_length engines plan count st).trans (hooksAt_length hvalid')
  have hhooks : st'.hooks = writeBack st.hooks ((plan.order.drop st.position).take count)
      (waveSettled engines plan count st).1 := by rw [commitGroup_next engines hwave.next]; rfl
  rw [hhooks] at hget'
  rcases writeBack_some ((hnodup.sublist (List.drop_sublist _ _)).sublist (List.take_sublist _ _))
    hlength hget' with ⟨hsame, -⟩ | ⟨n, hindex, hsettled⟩
  · obtain rfl := Option.some.inj (hget.symm.trans hsame)
    exact .kept
  · obtain ⟨hook₁, m, m', l, w, hs⟩ := settledMember engines hsettled
    have hat := hs.hookAt
    rw [waveHooks, hooksAt_getElem? hvalid', hindex, Option.bind_some, hget] at hat
    cases hat
    exact .member hwave hindex hs

/-- A hook that is visited by itself. -/
theorem commitSingle_hookPass {index position : Nat} {visited : Hook}
    (hvisits : Visits plan st index visited)
    (hget : st.hooks[i]? = some hook)
    (hget' : (commitSingle engines plan index visited st).hooks[i]? = some hook') :
    HookPass engines plan st
      { commitSingle engines plan index visited st with position := position } i hook
      hook' := by
  -- a hook that is settled without a question, in one of two ways
  have hsettled : ∀ (out : HookResult) (st₁ : CommitState ε), st₁.hooks = st.hooks →
      st₁.world = st.world → out.outcome = .failedSafe ∨ out.outcome = .stalePlan →
      let settled := settle engines .single visited out none 0 st.world
      (st₁.settled index settled.1 st₁.ledger settled.2).hooks[i]? = some hook' →
      HookPass engines plan st
        { st₁.settled index settled.1 st₁.ledger settled.2 with position := position } i hook
        hook' := by
    intro out st₁ hhooks hworld houtcome
    rw [settle_eq engines]
    intro settled h
    rw [CommitState.settled_hooks, hhooks] at h
    by_cases hi : index = i
    · subst hi
      obtain rfl := Option.some.inj (hvisits.get.symm.trans hget)
      rw [List.getElem?_set_self (List.getElem?_eq_some_iff.mp hget).1] at h
      cases h
      refine .unasked hvisits.prepared houtcome ?_
      exact ((World.Adds.refl st.world).log (Q := fun e ↦ ∃ s, e = .commitSettled s)
        ⟨_, rfl⟩).unasked fun c hc ↦ by obtain ⟨_, hc⟩ := hc; cases hc
    · rw [List.getElem?_set_ne hi, hget] at h
      cases h
      exact .kept
  rw [commitSingle] at hget' ⊢
  split at hget'
  · rename_i hstale
    rw [if_pos hstale]
    exact hsettled _ st rfl rfl (.inr rfl) hget'
  · rename_i hcurrent
    rw [if_neg hcurrent]
    dsimp only at hget' ⊢
    split at hget'
    · rename_i hblocked
      rw [if_pos hblocked]
      exact hsettled _ { st with attempted := st.attempted + 1 } rfl rfl (.inl rfl) hget'
    · rename_i hready
      rw [if_neg hready]
      generalize hone : commitOneHook engines .single plan.runtime plan.planId plan.ownerId
        visited.preparedContinuation visited visited.result st.ledger st.world = one at hget' ⊢
      obtain ⟨hook₁, ledger, w'⟩ := one
      rw [CommitState.settled_hooks] at hget'
      dsimp only at hget'
      by_cases hi : index = i
      · subst hi
        obtain rfl := Option.some.inj (hvisits.get.symm.trans hget)
        rw [List.getElem?_set_self (List.getElem?_eq_some_iff.mp hget).1] at hget'
        cases hget'
        exact .single hvisits hone
      · rw [List.getElem?_set_ne hi, hget] at hget'
        cases hget'
        exact .kept

/-- A domain that is refused. -/
theorem refuseDomain_hookPass {domain : Id} {position : Nat} (hget : st.hooks[i]? = some hook)
    (hget' : (refuseDomain engines plan domain st).hooks[i]? = some hook') :
    HookPass engines plan st
      { refuseDomain engines plan domain st with position := position } i hook hook' := by
  have hhooks : (refuseDomain engines plan domain st).hooks =
      (markDomainCommitPreflightFailed engines (st.world.env.generation plan.runtime) domain
        st.hooks st.world).1 := rfl
  rw [hhooks, markDomainCommitPreflightFailed_hooks, List.getElem?_map, hget,
    Option.map_some] at hget'
  obtain rfl := Option.some.inj hget'
  split
  · rename_i hmember
    refine .unasked hmember.2 (preflightResult_outcome _ _).symm ?_
    exact (markDomainCommitPreflightFailed_spec engines _ _ _ _).2.1.toAdds.unasked
      fun _ hc ↦ hc.2
  · exact .kept

/-- **One pass, seen from one hook.** -/
theorem commitIter_hookPass (hvalid : ∀ i ∈ plan.order, i < st.hooks.length)
    (hnodup : plan.order.Nodup) (hget : st.hooks[i]? = some hook)
    (hget' : (commitIter engines plan st).state.hooks[i]? = some hook') :
    HookPass engines plan st (commitIter engines plan st).state i hook hook' := by
  have hkept : ∀ st' : CommitState ε, st'.hooks = st.hooks → st'.hooks[i]? = some hook' →
      HookPass engines plan st st' i hook hook' := by
    intro st' hhooks h
    rw [hhooks, hget] at h
    cases h
    exact .kept
  cases horder : plan.order[st.position]? with
  | none =>
    rw [commitIter, horder] at hget' ⊢
    exact hkept _ rfl hget'
  | some index =>
    cases hat : st.hooks[index]? with
    | none =>
      simp only [commitIter, horder, hat] at hget' ⊢
      exact hkept _ rfl hget'
    | some visited =>
      by_cases hprepared : visited.result.outcome = .prepared
      · have hvisits : Visits plan st index visited := ⟨horder, hat, hprepared⟩
        by_cases hmore : commitGroupCount engines st.world.owners
            (st.world.env.generation plan.runtime)
            (hooksAt st.hooks (plan.order.drop st.position)) > 1
        · cases hflow : commitGroup engines plan (commitGroupCount engines st.world.owners
            (st.world.env.generation plan.runtime)
            (hooksAt st.hooks (plan.order.drop st.position))) st with
          | stop st' =>
            have hiter : commitIter engines plan st = .stop st' := by
              simp only [commitIter, horder, hat, hprepared, hmore, ne_eq, not_true_eq_false,
                if_false, if_true, hflow]
            have hpass := commitIter_pass engines plan st hvalid
            rw [hiter] at hget' hpass ⊢
            cases hpass
            exact hkept _ rfl hget'
          | next st' =>
            have hwave : WavePass engines plan _ st st' := ⟨⟨_, _, hvisits⟩, rfl, hmore, hflow⟩
            rw [hwave.iter] at hget' ⊢
            exact commitGroup_hookPass engines hvalid hnodup hwave hget hget'
        · simp only [commitIter, horder, hat, hprepared, hmore, ne_eq, not_true_eq_false, if_false]
            at hget' ⊢
          cases hrefused : domainRefused plan visited st with
          | none =>
            simp only [hrefused] at hget' ⊢
            exact commitSingle_hookPass engines hvisits hget hget'
          | some domain =>
            simp only [hrefused] at hget' ⊢
            exact refuseDomain_hookPass engines hget hget'
      · simp only [commitIter, horder, hat, hprepared, ne_eq, not_false_eq_true, if_true]
          at hget' ⊢
        exact hkept _ rfl hget'

end Pass

/-! ## The loop -/

section Loop

variable {plan : CommitPlan} {hooks : List Hook} {w : World ε}

/-- What a pass leaves in the ledger stays there. -/
theorem commitVisited_grows (hvalid : ∀ i ∈ plan.order, i < hooks.length)
    (hnodup : plan.order.Nodup) {st : CommitState ε}
    (hmem : st ∈ commitVisited engines plan hooks w) :
    (commitIter engines plan st).state.ledger.Grows
    (commitLoop engines plan hooks w).state.ledger := by
  have hlength : ∀ st' ∈ commitVisited engines plan hooks w, st'.hooks.length = hooks.length →
      (commitIter engines plan st').state.hooks.length = hooks.length :=
    fun st' _ h ↦ (commitIter_pass_of_length hnodup hvalid h).2
  obtain ⟨-, -, hlater⟩ := visited_invariant (fun st : CommitState ε ↦
    st.hooks.length = hooks.length) _ hmem hlength rfl
  refine hlater (fun final ↦ (commitIter engines plan st).state.ledger.Grows final.ledger) (.refl _)
    fun st' _ hst' hgrows ↦ hgrows.trans (commitIter_adds engines plan st' ?_ hnodup).grows
  exact fun i hi ↦ (hvalid i hi).trans_eq hst'.symm

/-- **The loop, seen from one hook.**  A hook that is changed is changed in one pass. -/
theorem commitLoop_hookPass (hvalid : ∀ i ∈ plan.order, i < hooks.length)
    (hnodup : plan.order.Nodup) {i : Nat} {hook hook' : Hook} (hget : hooks[i]? = some hook)
    (hget' : (commitLoop engines plan hooks w).state.hooks[i]? = some hook') :
    hook' = hook ∨ ∃ st ∈ commitVisited engines plan hooks w, st.hooks[i]? = some hook ∧
      HookPass engines plan st (commitIter engines plan st).state i hook hook' := by
  have hall := @Loop.run_invariant_visited _ (fun st ↦ decide (st.position < plan.order.length))
    (commitIter engines plan) (fun st : CommitState ε ↦
      st.hooks.length = hooks.length ∧ ∃ now, st.hooks[i]? = some now ∧ (now = hook ∨
        now.result.outcome ≠ .prepared ∧ ∃ st₀ ∈ commitVisited engines plan hooks w,
          st₀.hooks[i]? = some hook ∧
            HookPass engines plan st₀ (commitIter engines plan st₀).state i hook now))
    plan.order.length (.start hooks w) ?_ ⟨rfl, hook, hget, .inl rfl⟩
  · obtain ⟨-, now, hnow, hcases⟩ := hall
    obtain rfl : now = hook' := Option.some.inj (hnow.symm.trans hget')
    exact hcases.imp_right And.right
  · rintro st hmem ⟨hlength, now, hnow, hcases⟩
    have hvalid' : ∀ i ∈ plan.order, i < st.hooks.length := fun i hi ↦ hlength ▸ hvalid i hi
    have hcommits := (commitIter_pass engines plan st hvalid').commits hvalid' hnodup
    obtain ⟨after, hafter, hc⟩ := Pointwise.getElem?_left hcommits hnow
    refine ⟨hcommits.length_eq.symm.trans hlength, after, hafter, ?_⟩
    have hpass := commitIter_hookPass engines hvalid' hnodup hnow hafter
    rcases hc.outcome with rfl | ⟨hprepared, hfinal⟩
    · exact hcases
    · -- a hook that is still prepared has not been changed yet
      rcases hcases with rfl | ⟨hne, -⟩
      · exact .inr ⟨Outcome.ne_prepared_of_isFinal hfinal, st, hmem, hnow, hpass⟩
      · exact absurd hprepared hne

end Loop

/-! ## The queue -/

/-- The ledger and the process in which each queued hook is drained. -/
def drainVisited (runtime : RuntimeId) (ownerId : Id) :
    List Hook → Ledger → World ε → List (Ledger × World ε)
  | [], _, _ => []
  | hook :: rest, ledger, w =>
    let (_, ledger', w') := drainOne engines runtime ownerId hook ledger w
    (ledger, w) :: drainVisited runtime ownerId rest ledger' w'

theorem drainOne_grows (runtime : RuntimeId) (ownerId : Id) (hook : Hook) (ledger : Ledger)
    (w : World ε) : ledger.Grows (drainOne engines runtime ownerId hook ledger w).2.1 := by
  rw [drainOne]
  generalize drainPrepare engines runtime hook w = prepared
  obtain ⟨result, hook₁, out, w₁⟩ := prepared
  cases result with
  | notApplicable => exact .refl ledger
  | failed => exact .refl ledger
  | ok =>
    exact (commitOneHook_ledger engines .drain runtime out.planId ownerId none hook₁ out ledger
      w₁).1

/-- **The loop of a drain, seen from one hook.** -/
theorem drainLoop_getElem? {runtime : RuntimeId} {ownerId : Id}
    {hooks : List Hook} {ledger : Ledger}
    {w : World ε} {i : Nat} {drained : Drained}
    (h : (drainLoop engines runtime ownerId hooks ledger w).1[i]? = some drained) :
    ∃ hook l w₁, hooks[i]? = some hook ∧
      (drainVisited engines runtime ownerId hooks ledger w)[i]? = some (l, w₁) ∧
      (drainOne engines runtime ownerId hook l w₁).1 = drained ∧
      (drainOne engines runtime ownerId hook l w₁).2.1.Grows
        (drainLoop engines runtime ownerId hooks ledger w).2.1 := by
  have hgrows : ∀ (hooks : List Hook) (ledger : Ledger) (w : World ε),
      ledger.Grows (drainLoop engines runtime ownerId hooks ledger w).2.1 := by
    intro hooks
    induction hooks with
    | nil => exact fun ledger w ↦ .refl ledger
    | cons hook rest ih =>
      exact fun ledger w ↦ (drainOne_grows engines runtime ownerId hook ledger w).trans (ih _ _)
  induction hooks generalizing ledger w i with
  | nil => cases h
  | cons hook rest ih =>
    cases i with
    | zero =>
      cases h
      exact ⟨hook, ledger, w, rfl, rfl, rfl, hgrows rest _ _⟩
    | succ i => exact ih h

end HookKit
