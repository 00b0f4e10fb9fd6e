import HookKit.Plan.Compensation

/-!
# Staleness

A hook records the generation of the image catalog it was analyzed in.  Whoever hands it to an
engine compares that generation with the catalog's, except that a wave is compared when it is
selected, from its second member on.

* `Event.Current` — a hook is handed over in the generation it recorded.
* `System.StalenessGate` — a call hands nobody over in another one, and settles those it comes to.
* `System.WavesCurrent` — the waves of a call that the comparison misses nothing of.
* `stalenessGate_iff` — in every run the gate holds exactly in the calls whose waves are current.
-/

set_option autoImplicit false

namespace HookKit

open Loop Trace

variable {ε : Type} (engines : EngineRef → Engine ε)

/-- A hook is handed to its engine in the generation it recorded. -/
def Event.Current : Event → Prop
  | .prepareCall _ _ recorded current => recorded = current
  | .commitCall c => c.recorded = c.current
  | _ => True

instance : DecidablePred Event.Current
  | .prepareCall _ _ recorded current => inferInstanceAs (Decidable (recorded = current))
  | .commitCall c => inferInstanceAs (Decidable (c.recorded = c.current))
  | .prepareSettled .. | .obtained .. | .released .. | .compensateCall .. | .commitSettled .. =>
    inferInstanceAs (Decidable True)

theorem Event.ofAnswer.current {ids : List Id} {e : Event} (h : e.ofAnswer ids) : e.Current := by
  cases e <;> trivial

theorem Event.ofState.current {e : Event} (h : e.ofState) : e.Current := by
  cases e <;> trivial

/-! ## Passes of a preparation -/

/-- The state the loop of `hk_plan_prepare` starts in. -/
def PrepareState.start (hooks : List Hook) (w : World ε) : PrepareState ε :=
  ⟨w, hooks, 0, 0, 0, 0, fun _ ↦ false⟩

/-- The hook a pass is about. -/
def PrepareState.reached (st : PrepareState ε) : Option Hook :=
  st.hooks[st.index]?.filter fun hook ↦ hook.result.outcome = .analyzed

/-- The states in which a call of `hk_plan_prepare` starts a pass. -/
def preparePasses (plan : Plan) (w : World ε) : List (PrepareState ε) :=
  if plan.state ≠ .analyzed then []
  else
    match allocPrepare plan w with
    | (false, _) => []
    | (true, w) =>
      visited (fun st ↦ decide (st.index < plan.hooks.length))
        (prepareIter engines plan.runtime plan.domains (domainGateOk plan)) plan.hooks.length
        (.start plan.hooks w)

/-- If the pass starts a wave, the first member is current like the others. -/
def PrepareState.WaveCurrent (engines : EngineRef → Engine ε) (runtime : RuntimeId)
    (st : PrepareState ε) : Prop :=
  1 < prepareGroupCount engines (st.world.env.generation runtime) st.hooks st.index →
    ∀ hook, st.reached = some hook →
      hook.result.imageGeneration = st.world.env.generation runtime

theorem PrepareState.reached_eq_some {st : PrepareState ε} {hook : Hook} :
    st.reached = some hook ↔
      st.hooks[st.index]? = some hook ∧ hook.result.outcome = .analyzed := by
  rw [reached, Option.filter_eq_some_iff, decide_eq_true_eq]

/-! ### Waves -/

theorem releaseAll_idle {hooks : List Hook} (h : ∀ hook ∈ hooks, hook.preparedState = 0)
    (w : World ε) : releaseAll engines hooks w = (hooks, w) := by
  induction hooks with
  | nil => rfl
  | cons hook rest ih =>
    rw [releaseAll, releasePrepared_idle engines (h hook List.mem_cons_self)]
    dsimp only
    rw [ih fun hook' hmem ↦ h hook' (List.mem_cons_of_mem hook hmem)]

theorem logPrepareCalls_current (runtime : RuntimeId) {hooks : List Hook} {w : World ε}
    (h : ∀ hook ∈ hooks, hook.result.imageGeneration = w.env.generation runtime) :
    w.Adds Event.Current (logPrepareCalls runtime hooks w) := by
  induction hooks generalizing w with
  | nil => exact .refl w
  | cons hook rest ih =>
    have hfirst : w.Adds Event.Current (w.log
        (.prepareCall .group hook.hookId hook.result.imageGeneration (w.env.generation runtime))) :=
      (World.Adds.refl w).log (h hook List.mem_cons_self)
    exact hfirst.trans (ih fun hook' hmem ↦ h hook' (List.mem_cons_of_mem hook hmem))

/-- A wave of hooks that hold nothing of their engine. -/
theorem prepareGroup_idle (runtime : RuntimeId) (count : Nat) {st : PrepareState ε}
    (hidle : ∀ hook ∈ (st.hooks.drop st.index).take count, hook.preparedState = 0) :
    prepareGroup engines runtime count st =
      match st.world.alloc with
      | (false, w) => .stop { st with world := w }
      | (true, w) =>
        let members := (st.hooks.drop st.index).take count
        let (answer, w) := callPrepareGroup engines members (logPrepareCalls runtime members w)
        let st := recordPrepareGroup engines answer st.index (members.map Hook.result) 0
          { st with world := w, attempted := st.attempted + count }
        .next { st with index := st.index + count } := by
  have hsplit : st.hooks.take st.index ++ (st.hooks.drop st.index).take count ++
      st.hooks.drop (st.index + count) = st.hooks := by
    rw [List.append_assoc, ← List.drop_drop, List.take_append_drop, List.take_append_drop]
  rw [prepareGroup]
  generalize st.world.alloc = allocated
  obtain ⟨ok, w⟩ := allocated
  cases ok with
  | false => rfl
  | true =>
    dsimp only
    rw [releaseAll_idle engines hidle]
    dsimp only
    rw [hsplit]

/-- A verdict of a preparation other than that the hook is stale. -/
def Hook.PreparedAs (hook hook' : Hook) : Prop :=
  hook'.hookId = hook.hookId ∧ hook'.result.outcome ≠ .analyzed ∧ hook'.result.outcome ≠ .stalePlan

theorem preparedOutcome_ne (spec : HookSpec) (result : PrepareResult) :
    preparedOutcome spec result ≠ .analyzed ∧ preparedOutcome spec result ≠ .stalePlan := by
  cases result with
  | ok => exact ⟨by rintro ⟨⟩, by rintro ⟨⟩⟩
  | failed => exact ⟨by rintro ⟨⟩, by rintro ⟨⟩⟩
  | notApplicable =>
    rw [preparedOutcome]
    split <;> exact ⟨by rintro ⟨⟩, by rintro ⟨⟩⟩

/-- An attempt outside of every domain touches one hook. -/
theorem recordPrepareAttempt_hooks (gateOk : Id → Bool) (index : Nat) (result : PrepareResult)
    (hook : Hook) (diag : PrepareDiag) (out : HookResult) (st : PrepareState ε) :
    ∃ hook', (recordPrepareAttempt engines [] gateOk index result hook diag out st).hooks =
      st.hooks.set index hook' ∧ hook.PreparedAs hook' := by
  rw [recordPrepareAttempt]
  have htouched := (validatePrepareEffects_spec engines result hook diag st.world).1
  generalize validatePrepareEffects engines result hook diag st.world = validated at htouched ⊢
  obtain ⟨result', hook₁, diag', w₁⟩ := validated
  have hreleased : hook₁.Touched
      (if result' ≠ .ok then releasePrepared engines hook₁ w₁ else (hook₁, w₁)).1 := by
    split
    · exact releasePrepared_touched engines hook₁ w₁
    · exact .refl hook₁
  dsimp only at htouched ⊢
  generalize (if result' ≠ .ok then releasePrepared engines hook₁ w₁ else (hook₁, w₁)) = released
    at hreleased ⊢
  obtain ⟨hook₂, w₂⟩ := released
  have hnamed : hook.PreparedAs
      { hook₂ with result := preparedResult engines hook₂ out result' diag' } := by
    refine ⟨(htouched.trans hreleased).hookId, ?_⟩
    dsimp only
    rw [preparedResult_outcome]
    exact preparedOutcome_ne _ _
  dsimp only
  split
  · rw [failDomain_nil]
    exact ⟨_, rfl, hnamed⟩
  · exact ⟨_, rfl, hnamed⟩

/-- Recording the rest of a wave does not touch the hooks before it. -/
theorem recordPrepareGroup_getElem? (answer : PrepareGroupAnswer) (index : Nat)
    (outs : List HookResult) (offset : Nat) (st : PrepareState ε) {i : Nat}
    (hi : i < index + offset) :
    (recordPrepareGroup engines answer index outs offset st).hooks[i]? = st.hooks[i]? := by
  induction outs generalizing offset st with
  | nil => rfl
  | cons out outs ih =>
    rw [recordPrepareGroup]
    split
    · rfl
    · dsimp only
      rw [ih (offset + 1) _ (by omega)]
      split <;>
      · obtain ⟨hook', heq, -⟩ := recordPrepareAttempt_hooks engines (fun _ ↦ true)
          (index + offset) _ _ _ out _
        rw [heq, List.getElem?_set_ne (by omega)]

/-- The member a wave starts with gets a verdict of its engine, stale or not. -/
theorem recordPrepareGroup_first (answer : PrepareGroupAnswer) (index : Nat) (out : HookResult)
    (outs : List HookResult) {st : PrepareState ε} {hook : Hook}
    (hget : st.hooks[index]? = some hook) :
    ∃ hook', (recordPrepareGroup engines answer index (out :: outs) 0 st).hooks[index]? =
    some hook' ∧
      hook.PreparedAs hook' := by
  rw [recordPrepareGroup, Nat.add_zero, hget]
  dsimp only
  generalize (if answer.accepted = true then answer.writes 0
    else { answer.writes 0 with result := .failed, prepared := 0 }) = written
  rw [recordPrepareGroup_getElem? engines answer index outs 1 _ (Nat.lt_succ_self index)]
  obtain ⟨hook', heq, hid, hne⟩ := recordPrepareAttempt_hooks engines (fun _ ↦ true) index _ _ _
    out _
  rw [heq]
  refine ⟨hook', List.getElem?_set_self (List.getElem?_eq_some_iff.mp hget).1, hid.trans ?_, hne⟩
  split
  · exact (inspectPreparedContinuation_spec engines
      { hook with preparedState := written.prepared } _ _).1.hookId
  · rfl

/-- The members of a wave are in the plan, and hold nothing of their engine. -/
theorem prepareGroupCount_idle {engines : EngineRef → Engine ε} {generation : Nat}
    {st : PrepareState ε} (hidle : ∀ hook ∈ st.hooks, hook.Idle)
    (hcount : 1 < prepareGroupCount engines generation st.hooks st.index) :
    ∀ hook ∈ (st.hooks.drop st.index).take
      (prepareGroupCount engines generation st.hooks st.index), hook.preparedState = 0 := by
  intro hook hmem
  refine hidle hook (List.mem_of_mem_drop (List.mem_of_mem_take hmem)) ?_
  rw [prepareGroupCount_analyzed hcount hook hmem]
  exact nofun

/-- A wave whose members are all current is handed over as such. -/
theorem prepareGroup_current (runtime : RuntimeId) (count : Nat) {st : PrepareState ε}
    (hidle : ∀ hook ∈ (st.hooks.drop st.index).take count, hook.preparedState = 0)
    (hanalyzed : ∀ hook ∈ (st.hooks.drop st.index).take count, hook.result.outcome = .analyzed)
    (hcurrent : ∀ hook ∈ (st.hooks.drop st.index).take count,
      hook.result.imageGeneration = st.world.env.generation runtime) :
    st.world.Adds Event.Current (prepareGroup engines runtime count st).state.world := by
  rw [prepareGroup_idle engines runtime count hidle]
  have halloc : st.world.Quiet Event.Current st.world.alloc.2 := World.quiet_alloc st.world
  have hgeneration : st.world.alloc.2.env.generation = st.world.env.generation :=
    Env.alloc_generation st.world.env
  generalize st.world.alloc = allocated at halloc hgeneration ⊢
  obtain ⟨ok, w⟩ := allocated
  cases ok with
  | false => exact halloc.toAdds
  | true =>
    dsimp only [Flow.state_next] at halloc hgeneration ⊢
    have hlog := @logPrepareCalls_current _ runtime ((st.hooks.drop st.index).take count) w
      fun hook hmem ↦ by rw [hgeneration]; exact hcurrent hook hmem
    have hcall := callPrepareGroup_quiet (Q := Event.Current) engines
      ((st.hooks.drop st.index).take count)
      (logPrepareCalls runtime ((st.hooks.drop st.index).take count) w)
    generalize callPrepareGroup engines ((st.hooks.drop st.index).take count)
      (logPrepareCalls runtime ((st.hooks.drop st.index).take count) w) = called at hcall ⊢
    obtain ⟨answer, w₁⟩ := called
    dsimp only at hcall ⊢
    have hrecord := @recordPrepareGroup_moves _ engines (st.hooks.map Hook.hookId) answer st.index
      (((st.hooks.drop st.index).take count).map Hook.result) 0
      { st with world := w₁, attempted := st.attempted + count }
      (fun hook hmem ↦ List.mem_map_of_mem hmem) fun i out hi ↦ by
        rw [List.getElem?_map] at hi
        obtain ⟨member, hmember, rfl⟩ := Option.map_eq_some_iff.mp hi
        refine ⟨member, ?_, hanalyzed member (List.mem_of_getElem? hmember), rfl, rfl⟩
        rw [List.getElem?_take] at hmember
        split at hmember
        · rwa [List.getElem?_drop] at hmember
        · cases hmember
    exact ((halloc.toAdds.trans hlog).trans hcall.toAdds).trans
      (hrecord.world.toAdds.mono fun _ ↦ Event.ofAnswer.current)

/-! ### One pass -/

section Pass

variable {runtime : RuntimeId} {domains : List Domain} {gateOk : Id → Bool} {st : PrepareState ε}
  {hook : Hook}

/-- A hook that holds nothing of its engine and is handed over when it is current. -/
theorem prepareSingle_current (st : PrepareState ε) {ids : List Id}
    (hids : ∀ h ∈ st.hooks, h.hookId ∈ ids) (hget : st.hooks[st.index]? = some hook)
    (hanalyzed : hook.result.outcome = .analyzed) (hidle : hook.Idle)
    (hcurrent : hook.result.imageGeneration = st.world.env.generation runtime) :
    st.world.Adds Event.Current
      (prepareSingle engines runtime domains gateOk hook st).world := by
  have hreleased := releasePrepared_idle engines (hidle (by rw [hanalyzed]; exact nofun)) st.world
  rw [prepareSingle, hreleased]
  obtain ⟨htouched, hdispatch⟩ := dispatchPrepare_spec engines .single runtime hook st.world
  have hcall : st.world.Adds Event.Current
      (dispatchPrepare engines .single runtime hook st.world).2.2.2 := by
    rcases hdispatch with heq | hquiet
    · rw [heq]
      exact .refl _
    · exact ((World.Adds.refl st.world).log hcurrent).trans
        (hquiet.toAdds.mono fun _ ↦ Event.ofState.current)
  dsimp only
  generalize dispatchPrepare engines .single runtime hook st.world = dispatched at htouched hcall ⊢
  obtain ⟨result, hook', diag, w⟩ := dispatched
  have hrecord := recordPrepareAttempt_moves engines domains gateOk st.index result diag hook.result
    { st with world := w } hids hget htouched hanalyzed ⟨rfl, rfl⟩
  exact hcall.trans (hrecord.world.toAdds.mono fun _ ↦ Event.ofAnswer.current)

/-- **A pass whose wave is current hands nobody over in another generation.** -/
theorem prepareIter_current (hidle : ∀ hook ∈ st.hooks, hook.Idle)
    (hwave : st.WaveCurrent engines runtime) :
    st.world.Adds Event.Current (prepareIter engines runtime domains gateOk st).state.world := by
  have hids : ∀ h ∈ st.hooks, h.hookId ∈ st.hooks.map Hook.hookId :=
    fun h hh ↦ List.mem_map_of_mem hh
  rw [prepareIter]
  split
  · exact .refl _
  · rename_i hook hget
    split
    · exact .refl _
    · rename_i hanalyzed
      rw [not_not] at hanalyzed
      dsimp only
      split
      · rename_i hcount
        refine prepareGroup_current engines runtime _ (prepareGroupCount_idle hidle hcount)
          (prepareGroupCount_analyzed hcount) ?_
        have hfirst := hwave hcount hook (PrepareState.reached_eq_some.mpr ⟨hget, hanalyzed⟩)
        obtain ⟨first, rest, htake, -, -, hrest⟩ := prepareGroupCount_spec hcount
        rw [htake]
        intro member hmem
        rcases List.mem_cons.mp hmem with rfl | hmem
        · -- the first member is the hook the pass is about
          obtain ⟨n, hn⟩ := Nat.exists_eq_succ_of_ne_zero (Nat.ne_zero_of_lt hcount)
          obtain ⟨hlt, rfl⟩ := List.getElem?_eq_some_iff.mp hget
          rw [hn, List.drop_eq_getElem_cons hlt, List.take_succ_cons] at htake
          rw [← (List.cons.inj htake).1]
          exact hfirst
        · exact joinsPrepareWave_generation (hrest member hmem)
      · split
        · exact (prepareStale_moves engines domains gateOk hget hids hanalyzed).world.toAdds.mono
            fun _ ↦ Event.ofAnswer.current
        · rename_i hgeneration
          rw [not_not] at hgeneration
          split
          · exact (prepareBlocked_moves engines { st with attempted := st.attempted + 1 } hids hget
              hanalyzed).world.toAdds.mono fun _ ↦ Event.ofAnswer.current
          · exact prepareSingle_current engines { st with attempted := st.attempted + 1 } hids hget
              hanalyzed (hidle hook (List.mem_of_getElem? hget)) hgeneration

/-- A hook that is stale when a pass comes to it, and does not start a wave, is settled as stale. -/
theorem prepareIter_stale (hreached : st.reached = some hook)
    (hstale : hook.result.imageGeneration ≠ st.world.env.generation runtime)
    (hcount : ¬1 < prepareGroupCount engines (st.world.env.generation runtime) st.hooks st.index) :
    ∃ hook' ∈ (prepareIter engines runtime domains gateOk st).state.hooks,
      hook'.hookId = hook.hookId ∧ hook'.result.outcome = .stalePlan := by
  obtain ⟨hget, hanalyzed⟩ := PrepareState.reached_eq_some.mp hreached
  rw [prepareIter, hget]
  dsimp only
  rw [if_neg (not_not.mpr hanalyzed), if_neg hcount, if_pos hstale]
  dsimp only [Flow.state_next]
  rw [prepareStale]
  generalize hset : ({ st with
      world := st.world.log (.prepareSettled hook.hookId .stalePlan)
      hooks := st.hooks.set st.index { hook with
        result := { hook.result with
          outcome := .stalePlan, retryable := true, currentlyValid := false } }
      failed := st.failed + 1 } : PrepareState ε) = st'
  have hmem : { hook with
      result := { hook.result with
        outcome := .stalePlan, retryable := true, currentlyValid := false } } ∈ st'.hooks := by
    rw [← hset]
    exact List.mem_set (List.getElem?_eq_some_iff.mp hget).1 _
  -- the roll-back of the domain leaves a stale hook alone
  obtain ⟨hook', hmem', hprepares⟩ := Pointwise.mem_left
    (failDomain_moves engines domains gateOk _ (fun h hh ↦ List.mem_map_of_mem hh)).hooks hmem
  exact ⟨hook', hmem', hprepares.hookId, hprepares.outcome⟩

/-- A hook that starts a wave is not settled as stale, whatever it recorded. -/
theorem prepareIter_wave (hidle : ∀ hook ∈ st.hooks, hook.Idle) (hreached : st.reached = some hook)
    (hcount : 1 < prepareGroupCount engines (st.world.env.generation runtime) st.hooks st.index) :
    (∃ w, prepareIter engines runtime domains gateOk st = .stop { st with world := w }) ∨
      ∃ hook' ∈ (prepareIter engines runtime domains gateOk st).state.hooks,
        hook.PreparedAs hook' := by
  obtain ⟨hget, hanalyzed⟩ := PrepareState.reached_eq_some.mp hreached
  rw [prepareIter, hget]
  dsimp only
  rw [if_neg (not_not.mpr hanalyzed), if_pos hcount,
    prepareGroup_idle engines runtime _ (prepareGroupCount_idle hidle hcount)]
  generalize st.world.alloc = allocated
  obtain ⟨ok, w⟩ := allocated
  cases ok with
  | false => exact .inl ⟨w, rfl⟩
  | true =>
    refine .inr ?_
    dsimp only
    generalize hmembers : (st.hooks.drop st.index).take
      (prepareGroupCount engines (st.world.env.generation runtime) st.hooks st.index) = members
    obtain ⟨n, hn⟩ := Nat.exists_eq_succ_of_ne_zero (Nat.ne_zero_of_lt hcount)
    obtain ⟨hlt, hhook⟩ := List.getElem?_eq_some_iff.mp hget
    rw [hn, List.drop_eq_getElem_cons hlt, List.take_succ_cons, hhook] at hmembers
    subst hmembers
    generalize callPrepareGroup engines _ (logPrepareCalls runtime _ w) = called
    obtain ⟨answer, w₁⟩ := called
    obtain ⟨hook', hget', hnamed⟩ := @recordPrepareGroup_first _ engines answer st.index hook.result
      (((st.hooks.drop (st.index + 1)).take n).map Hook.result)
      { st with
        world := w₁
        attempted := st.attempted +
          prepareGroupCount engines (st.world.env.generation runtime) st.hooks st.index } hook hget
    exact ⟨hook', List.mem_of_getElem? hget', hnamed⟩

end Pass

/-! ### The call -/

section Prepare

variable {plan : Plan} {w : World ε} {st : PrepareState ε} {hook : Hook}

/-- A call of `hk_plan_prepare` either starts no pass or runs its loop. -/
theorem preparePlan_passes (plan : Plan) (w : World ε) :
    preparePasses engines plan w = [] ∧
        w.Quiet (fun _ ↦ False) (preparePlan engines plan w).2.2 ∨
      ∃ w₁, plan.state = .analyzed ∧ w.Quiet (fun _ ↦ False) w₁ ∧
        preparePasses engines plan w = visited (fun st ↦ decide (st.index < plan.hooks.length))
          (prepareIter engines plan.runtime plan.domains (domainGateOk plan)) plan.hooks.length
          (.start plan.hooks w₁) ∧
        (preparePlan engines plan w).2.1.hooks = (prepareLoop engines plan w₁).state.hooks ∧
        (prepareLoop engines plan w₁).state.world.Quiet (fun _ ↦ False)
          (preparePlan engines plan w).2.2 := by
  rw [preparePasses, preparePlan]
  split
  · exact .inl ⟨rfl, .refl w⟩
  · rename_i hstate
    rw [not_not] at hstate
    have halloc := allocPrepare_quiet (Q := fun _ ↦ False) plan w
    generalize allocPrepare plan w = allocated at halloc ⊢
    obtain ⟨ok, w₁⟩ := allocated
    cases ok with
    | false => exact .inl ⟨rfl, halloc⟩
    | true =>
      refine .inr ⟨w₁, hstate, halloc, rfl, ?_⟩
      dsimp only
      cases prepareLoop engines plan w₁ with
      | stop st => exact ⟨rfl, .refl _⟩
      | next st =>
        dsimp only [Flow.state_next]
        have hreport := createReport_quiet (Q := fun _ ↦ False) plan.hooks.length st.world
        generalize createReport plan.hooks.length st.world = report at hreport ⊢
        obtain ⟨ok', w₂⟩ := report
        cases ok' <;> exact ⟨rfl, hreport⟩

theorem prepareIter_idle (runtime : RuntimeId) (domains : List Domain) (gateOk : Id → Bool)
    (hidle : ∀ hook ∈ st.hooks, hook.Idle) :
    ∀ hook ∈ (prepareIter engines runtime domains gateOk st).state.hooks, hook.Idle := by
  intro hook' hmem'
  obtain ⟨hook, hmem, hprepares⟩ := Pointwise.mem_right
    (prepareIter_moves engines runtime domains gateOk fun h hh ↦ List.mem_map_of_mem hh).hooks hmem'
  exact hprepares.idle (hidle hook hmem)

/-- What becomes of one hook in a pass. -/
theorem prepareIter_keeps (runtime : RuntimeId) (domains : List Domain) (gateOk : Id → Bool)
    (P : Outcome → Prop) (hP : ∀ o o', o.preparesTo o' → P o → P o') {id : Id}
    (h : ∃ hook ∈ st.hooks, hook.hookId = id ∧ P hook.result.outcome) :
    ∃ hook ∈ (prepareIter engines runtime domains gateOk st).state.hooks,
      hook.hookId = id ∧ P hook.result.outcome := by
  obtain ⟨hook, hmem, hid, hout⟩ := h
  obtain ⟨hook', hmem', hprepares⟩ := Pointwise.mem_left
    (prepareIter_moves engines runtime domains gateOk fun h hh ↦ List.mem_map_of_mem hh).hooks hmem
  exact ⟨hook', hmem', hprepares.hookId.trans hid, hP _ _ hprepares.outcome hout⟩

/-- A preparation whose waves are current hands nobody over in another generation. -/
theorem preparePlan_current (hidle : plan.state = .analyzed → ∀ hook ∈ plan.hooks, hook.Idle)
    (hwaves : ∀ st ∈ preparePasses engines plan w, st.WaveCurrent engines plan.runtime) :
    w.Adds Event.Current (preparePlan engines plan w).2.2 := by
  rcases preparePlan_passes engines plan w
    with ⟨-, hquiet⟩ | ⟨w₁, hstate, hbefore, hpasses, -, hafter⟩
  · exact hquiet.toAdds.mono fun _ ↦ False.elim
  · rw [hpasses] at hwaves
    have hloop : w₁.Adds Event.Current (prepareLoop engines plan w₁).state.world ∧
        ∀ hook ∈ (prepareLoop engines plan w₁).state.hooks, hook.Idle :=
      run_invariant_visited
        (fun st : PrepareState ε ↦ w₁.Adds Event.Current st.world ∧ ∀ hook ∈ st.hooks, hook.Idle)
        plan.hooks.length (fun st hmem ⟨hadds, hidle⟩ ↦
          ⟨hadds.trans (prepareIter_current engines hidle (hwaves st hmem)),
            prepareIter_idle engines plan.runtime plan.domains (domainGateOk plan) hidle⟩)
        ⟨.refl w₁, hidle hstate⟩
    exact ((hbefore.toAdds.mono fun _ ↦ False.elim).trans hloop.1).trans
      (hafter.toAdds.mono fun _ ↦ False.elim)

/-- A stale hook that a preparation comes to is left stale, unless it starts a wave. -/
theorem preparePlan_stale (hmem : st ∈ preparePasses engines plan w)
    (hreached : st.reached = some hook)
    (hstale : hook.result.imageGeneration ≠ st.world.env.generation plan.runtime)
    (hwave : st.WaveCurrent engines plan.runtime) :
    ∃ hook' ∈ (preparePlan engines plan w).2.1.hooks,
      hook'.hookId = hook.hookId ∧ hook'.result.outcome = .stalePlan := by
  rcases preparePlan_passes engines plan w with ⟨hnone, -⟩ | ⟨w₁, -, -, hpasses, hhooks, -⟩
  · rw [hnone] at hmem
    exact absurd hmem List.not_mem_nil
  · rw [hpasses] at hmem
    rw [hhooks]
    have hend := (visited_invariant (fun _ ↦ True) _ hmem (fun _ _ _ ↦ trivial) trivial).2.2
    refine hend (fun st' ↦ ∃ hook' ∈ st'.hooks, hook'.hookId = hook.hookId ∧
      hook'.result.outcome = .stalePlan) ?_ fun st' _ _ h ↦ ?_
    · exact prepareIter_stale engines hreached hstale fun hcount ↦
        hstale (hwave hcount hook hreached)
    · refine prepareIter_keeps engines _ _ _ (· = .stalePlan) ?_ h
      rintro o o' hto rfl
      exact hto

/-- A hook that starts a wave is not left stale. -/
theorem preparePlan_wave (hidle : plan.state = .analyzed → ∀ hook ∈ plan.hooks, hook.Idle)
    (hmem : st ∈ preparePasses engines plan w) (hreached : st.reached = some hook)
    (hcount : 1 < prepareGroupCount engines (st.world.env.generation plan.runtime) st.hooks
      st.index) :
    ∃ hook' ∈ (preparePlan engines plan w).2.1.hooks,
      hook'.hookId = hook.hookId ∧ hook'.result.outcome ≠ .stalePlan := by
  rcases preparePlan_passes engines plan w with ⟨hnone, -⟩ | ⟨w₁, hstate, -, hpasses, hhooks, -⟩
  · rw [hnone] at hmem
    exact absurd hmem List.not_mem_nil
  · rw [hpasses] at hmem
    rw [hhooks]
    obtain ⟨-, hidle', hend⟩ := visited_invariant
      (fun st : PrepareState ε ↦ ∀ hook ∈ st.hooks, hook.Idle) _ hmem
      (fun _ _ h ↦ prepareIter_idle engines _ _ _ h) (hidle hstate)
    rcases @prepareIter_wave _ engines _ plan.domains (domainGateOk plan) _ _ hidle' hreached
      hcount with ⟨w', hstop⟩ | hnamed
    · -- out of memory: the hook stays as it was
      obtain ⟨hget, hanalyzed⟩ := PrepareState.reached_eq_some.mp hreached
      have hrun : prepareLoop engines plan w₁ = .stop { st with world := w' } :=
        run_of_visited_stop hmem hstop
      rw [hrun]
      refine ⟨hook, List.mem_of_getElem? hget, rfl, ?_⟩
      rw [hanalyzed]
      exact nofun
    · have hlast := hend (fun st' ↦ ∃ hook' ∈ st'.hooks, hook'.hookId = hook.hookId ∧
        (hook'.result.outcome ≠ .analyzed ∧ hook'.result.outcome ≠ .stalePlan)) hnamed
        fun st' _ _ h ↦ prepareIter_keeps engines _ _ _
          (fun o ↦ o ≠ .analyzed ∧ o ≠ .stalePlan) ?_ h
      · obtain ⟨hook', hmem', hid, -, hne⟩ := hlast
        exact ⟨hook', hmem', hid, hne⟩
      · intro o o' hto hne
        cases o <;> simp_all [Outcome.preparesTo]
        rcases hto with rfl | rfl <;> simp

end Prepare

/-! ## Passes of a commit -/

/-- The hook a pass is about. -/
def CommitState.reached (plan : CommitPlan) (st : CommitState ε) : Option Hook :=
  (plan.order[st.position]?.bind fun index ↦ st.hooks[index]?).filter fun hook ↦
    hook.result.outcome = .prepared

theorem CommitState.reached_eq_some {plan : CommitPlan} {st : CommitState ε} {hook : Hook} :
    st.reached plan = some hook ↔ ∃ index, Visits plan st index hook := by
  rw [reached, Option.filter_eq_some_iff, decide_eq_true_eq, Option.bind_eq_some_iff]
  constructor
  · rintro ⟨⟨index, horder, hget⟩, hprepared⟩
    exact ⟨index, horder, hget, hprepared⟩
  · rintro ⟨index, horder, hget, hprepared⟩
    exact ⟨⟨index, horder, hget⟩, hprepared⟩

/-- The process in which a wave is handed to its engine, if it is: when the memory for it is there
and the engine revalidates it. -/
def waveReached (plan : CommitPlan) (count : Nat) (st : CommitState ε) : Option (World ε) :=
  let hooks := waveHooks plan count st
  let engine := waveEngine engines hooks
  match st.world.env.allocAll 4 with
  | (false, _) => none
  | (true, env) =>
    match allocMembers hooks (st.world.setEnv env) with
    | (false, _) => none
    | (true, w) =>
      let members := hooks.map (openOperation plan engine.revalidateGroupCtx.isNone)
      let (revalidated, _, w) := revalidateWave engine members w
      if revalidated then some w else none

/-- The hooks that a pass selects for a wave. -/
def CommitState.waveCount (engines : EngineRef → Engine ε) (plan : CommitPlan)
    (st : CommitState ε) : Nat :=
  commitGroupCount engines st.world.owners (st.world.env.generation plan.runtime)
    (hooksAt st.hooks (plan.order.drop st.position))

/-- If the pass starts a wave, the first member is current like the others, and all of them still
are when the engine is reached. -/
def CommitState.WaveCurrent (engines : EngineRef → Engine ε) (plan : CommitPlan)
    (st : CommitState ε) : Prop :=
  1 < st.waveCount engines plan → ∀ hook, st.reached plan = some hook →
    hook.result.imageGeneration = st.world.env.generation plan.runtime ∧
      ∀ w ∈ waveReached engines plan (st.waveCount engines plan) st,
        w.env.generation plan.runtime = st.world.env.generation plan.runtime

/-! ### Waves -/

/-- Either the wave is not revalidated and nobody is reached, or everybody is, in the process that
revalidation leaves. -/
theorem commitWave_reached (engine : Engine ε) (runtime : RuntimeId) (members : List Member)
    (w : World ε) (hcommit : engine.commitGroupCtx.isSome) :
    (revalidateWave engine members w).1 = false ∧
        w.Quiet (fun _ ↦ False) (commitWave engines engine runtime members w).2.2 ∨
      (revalidateWave engine members w).1 = true ∧
        w.Quiet (Event.ofWave engines runtime members (revalidateWave engine members w).2.2)
          (commitWave engines engine runtime members w).2.2 ∧
        ∀ m ∈ members, .commitCall (m.commitRecord engines runtime
          (revalidateWave engine members w).2.2) ∈
            (commitWave engines engine runtime members w).2.2.history := by
  obtain ⟨-, hquiet, hreached⟩ := commitWave_spec engines engine runtime members w hcommit
  have hrevalidated := (revalidateWave_spec (Q := fun _ ↦ False) engine members w).2
  cases hr : (revalidateWave engine members w).1 with
  | false =>
    refine .inl ⟨rfl, ?_⟩
    rw [commitWave]
    generalize revalidateWave engine members w = r at hr hrevalidated ⊢
    obtain ⟨revalidated, members₁, w₁⟩ := r
    cases hr
    exact hrevalidated
  | true =>
    refine .inr ⟨rfl, hquiet, hreached.resolve_left ?_⟩
    rintro ⟨hverdict, -⟩
    obtain ⟨commit, hsome⟩ := Option.isSome_iff_exists.mp hcommit
    rw [commitWave, hsome] at hverdict
    generalize revalidateWave engine members w = r at hr hverdict
    obtain ⟨revalidated, members₁, w₁⟩ := r
    cases hr
    dsimp only at hverdict
    generalize callGroup commit members₁ (logCommitCalls engines runtime members₁ w₁) =
      c at hverdict
    obtain ⟨accepted, members₂, w₂⟩ := c
    cases accepted <;> cases hverdict

/-- The calls that a wave writes down. -/
theorem answerWave_reached (engine : Engine ε) (runtime : RuntimeId) (members : List Member)
    (w : World ε) (hcommit : engine.commitGroupCtx.isSome) :
    w.Adds (fun e ↦ e.Current ∨ (revalidateWave engine members w).1 = true ∧
        ∃ m ∈ members, e = .commitCall (m.commitRecord engines runtime
          (revalidateWave engine members w).2.2))
        (answerWave engines engine runtime members w).world ∧
      ((revalidateWave engine members w).1 = true → ∀ m ∈ members,
        .commitCall (m.commitRecord engines runtime (revalidateWave engine members w).2.2) ∈
          (answerWave engines engine runtime members w).world.history) := by
  have hcases := commitWave_reached engines engine runtime members w hcommit
  rw [answerWave]
  generalize commitWave engines engine runtime members w = c at hcases ⊢
  obtain ⟨verdict, members₁, w₁⟩ := c
  dsimp only at hcases ⊢
  obtain ⟨-, hquiet₂, -⟩ := verifyWave_spec (Q := fun _ ↦ False) engine verdict members₁ w₁
  generalize verifyWave engine verdict members₁ w₁ = v at hquiet₂ ⊢
  obtain ⟨verified, members₂, w₂⟩ := v
  dsimp only at hquiet₂ ⊢
  obtain ⟨-, hquiet₃, -⟩ := compensateWave_spec engine verdict verified members₂ w₂
  generalize compensateWave engine verdict verified members₂ w₂ = k at hquiet₃ ⊢
  obtain ⟨members₃, w₃⟩ := k
  have hafter : w₁.Adds (fun e ↦ ∃ accepted flagged, e = .compensateCall accepted flagged) w₃ :=
    ((hquiet₂.mono fun _ ↦ False.elim).trans hquiet₃).toAdds
  have hsilent : ∀ e : Event, (∃ accepted flagged, e = .compensateCall accepted flagged) →
      e.Current := by
    rintro _ ⟨accepted, flagged, rfl⟩
    trivial
  rcases hcases with ⟨hr, hquiet₁⟩ | ⟨hr, hquiet₁, hlogged⟩
  · refine ⟨(hquiet₁.toAdds.mono fun _ ↦ False.elim).trans
      (hafter.mono fun e he ↦ .inl (hsilent e he)), fun h ↦ ?_⟩
    rw [hr] at h
    cases h
  · refine ⟨(hquiet₁.toAdds.mono ?_).trans (hafter.mono fun e he ↦ .inl (hsilent e he)),
      fun _ m hm ↦ hafter.history.mem_old (hlogged m hm)⟩
    rintro e (hcalled | hcompensate)
    · exact .inr ⟨hr, hcalled⟩
    · exact .inl (hsilent e hcompensate)

/-- **The calls of a wave.**  They are made in the process in which the engine is reached, for every
member, and nobody else is called. -/
theorem commitGroup_reached {plan : CommitPlan} {count : Nat} {st : CommitState ε}
    (hcommit : (waveEngine engines (waveHooks plan count st)).commitGroupCtx.isSome) :
    st.world.Adds (fun e ↦ e.Current ∨ ∃ w ∈ waveReached engines plan count st,
        ∃ hook ∈ waveHooks plan count st,
          e = .commitCall (hook.commitRecord engines .group plan.runtime none w))
        (commitGroup engines plan count st).state.world ∧
      ∀ w ∈ waveReached engines plan count st, ∀ hook ∈ waveHooks plan count st,
        .commitCall (hook.commitRecord engines .group plan.runtime none w) ∈
          (commitGroup engines plan count st).state.world.history := by
  have halloc : st.world.Quiet (fun _ ↦ False)
      (allocMembers (waveHooks plan count st) (st.world.setEnv (st.world.env.allocAll 4).2)).2 :=
    (World.quiet_setEnv st.world _).trans (allocMembers_quiet _ _)
  have hsettle := @settle_quiet _ engines plan count st
  rw [waveAnswers] at hsettle
  cases hall : st.world.env.allocAll 4 with
  | mk ok env =>
    rw [hall] at halloc hsettle
    cases ok with
    | false =>
      have hnone : waveReached engines plan count st = none := by rw [waveReached, hall]
      rw [commitGroup, hall, hnone]
      exact ⟨(World.quiet_setEnv st.world env).toAdds, by simp⟩
    | true =>
      cases hmembers : allocMembers (waveHooks plan count st) (st.world.setEnv env) with
      | mk ok' w =>
        rw [hmembers] at halloc hsettle
        cases ok' with
        | false =>
          have hnone : waveReached engines plan count st = none := by
            rw [waveReached, hall]
            dsimp only
            rw [hmembers]
          rw [hnone, commitGroup, hall]
          dsimp only
          rw [← waveHooks, hmembers]
          exact ⟨halloc.toAdds.mono fun _ ↦ False.elim, by simp⟩
        | true =>
          obtain ⟨st', hnext⟩ : ∃ st', commitGroup engines plan count st = .next st' := by
            rw [commitGroup, hall]
            dsimp only
            rw [← waveHooks, hmembers]
            exact ⟨_, rfl⟩
          have hworld : st'.world = (waveSettled engines plan count st).2.2 := by
            rw [commitGroup_next engines hnext]
            rfl
          rw [hnext, Flow.state_next, hworld]
          generalize hopened : (waveHooks plan count st).map (openOperation plan
            (waveEngine engines (waveHooks plan count st)).revalidateGroupCtx.isNone) = members
            at hsettle
          obtain ⟨hadds, hlogged⟩ := answerWave_reached engines
            (waveEngine engines (waveHooks plan count st)) plan.runtime members w hcommit
          have hreached : waveReached engines plan count st =
              if (revalidateWave (waveEngine engines (waveHooks plan count st)) members w).1 then
                some (revalidateWave (waveEngine engines (waveHooks plan count st)) members w).2.2
              else none := by
            rw [waveReached, hall]
            dsimp only
            rw [hmembers, hopened]
          rw [hreached]
          refine ⟨((halloc.toAdds.mono fun _ ↦ False.elim).trans (hadds.mono ?_)).trans
            (hsettle.mono ?_), ?_⟩
          · rintro e (hcurrent | ⟨hr, m, hm, rfl⟩)
            · exact .inl hcurrent
            · subst hopened
              obtain ⟨hook, hmem, rfl⟩ := List.mem_map.mp hm
              exact .inr ⟨_, if_pos hr, hook, hmem, rfl⟩
          · rintro _ ⟨settled, rfl⟩
            exact .inl trivial
          · intro w₁ hw₁ hook hmem
            split at hw₁
            · rename_i hr
              cases hw₁
              subst hopened
              exact hsettle.history.mem_old (hlogged hr _ (List.mem_map_of_mem hmem))
            · cases hw₁

/-! ### One pass -/

section CommitPass

variable {plan : CommitPlan} {st : CommitState ε} {hook : Hook}

/-- The wave that a pass selects. -/
structure Selected (engines : EngineRef → Engine ε) (plan : CommitPlan) (st : CommitState ε)
    (hook : Hook) (rest : List Hook) : Prop where
  wave : waveHooks plan (st.waveCount engines plan) st = hook :: rest
  others : rest ≠ []
  commits : (hook.engine engines).commitGroupCtx.isSome
  prepared : ∀ h ∈ rest, h.result.outcome = .prepared
  current : ∀ h ∈ rest, h.result.imageGeneration = st.world.env.generation plan.runtime

theorem Visits.selected {engines : EngineRef → Engine ε} {index : Nat}
    (h : Visits plan st index hook)
    (hvalid : ∀ i ∈ plan.order, i < st.hooks.length) (hcount : 1 < st.waveCount engines plan) :
    ∃ rest, Selected engines plan st hook rest := by
  have hdrop : ∀ i ∈ plan.order.drop st.position, i < st.hooks.length :=
    fun i hi ↦ hvalid i (List.mem_of_mem_drop hi)
  obtain ⟨first, rest, htake, hlength, hcommit, hmembers, hlater⟩ := commitGroupCount_spec hcount
  have hwave := (hooksAt_take hdrop _).trans htake
  -- the hook the pass is about is the first of the wave
  obtain ⟨n, hn⟩ := Nat.exists_eq_succ_of_ne_zero (Nat.ne_zero_of_lt hcount)
  rw [CommitState.waveCount] at hn
  rw [hn, hooksAt_drop h.order h.get, List.take_succ_cons] at htake
  obtain rfl := (List.cons.inj htake).1
  refine ⟨rest, hwave, ?_, hcommit, fun h hh ↦
    (hmembers h (List.mem_cons_of_mem hook hh)).1, hlater⟩
  rintro rfl
  rw [CommitState.waveCount, hlength] at hcount
  exact absurd hcount (Nat.lt_irrefl 1)

theorem Selected.engine {rest : List Hook} (h : Selected engines plan st hook rest) :
    waveEngine engines (waveHooks plan (st.waveCount engines plan) st) = hook.engine engines := by
  rw [h.wave]
  rfl

/-- **A pass whose wave is current hands nobody over in another generation.** -/
theorem commitIter_current (hvalid : ∀ i ∈ plan.order, i < st.hooks.length)
    (hwave : st.WaveCurrent engines plan) :
    st.world.Adds Event.Current (commitIter engines plan st).state.world := by
  rw [commitIter]
  split
  · exact .refl _
  · rename_i index horder
    split
    · exact .refl _
    · rename_i hook hget
      split
      · exact .refl _
      · rename_i hprepared
        rw [not_not] at hprepared
        have hvisits : Visits plan st index hook := ⟨horder, hget, hprepared⟩
        dsimp only
        split
        · rename_i hcount
          obtain ⟨rest, hselected⟩ := hvisits.selected hvalid hcount
          obtain ⟨hfirst, hunmoved⟩ := hwave hcount hook
            (CommitState.reached_eq_some.mpr ⟨index, hvisits⟩)
          have hcommit := hselected.commits
          rw [← hselected.engine] at hcommit
          refine (commitGroup_reached engines hcommit).1.mono ?_
          rintro e (hcurrent | ⟨w, hw, member, hmem, rfl⟩)
          · exact hcurrent
          · show member.result.imageGeneration = w.env.generation plan.runtime
            rw [hunmoved w hw]
            rw [hselected.wave] at hmem
            rcases List.mem_cons.mp hmem with rfl | hmem
            · exact hfirst
            · exact hselected.current member hmem
        · split
          · refine (markDomainCommitPreflightFailed_spec engines _ _ _ _).2.1.toAdds.mono
              fun e he ↦ ?_
            cases e with
            | prepareCall => exact he.1.elim
            | commitCall => exact he.2.elim
            | _ => trivial
          · rw [commitSingle]
            split
            · exact (World.Adds.refl _).log trivial
            · rename_i hcurrent
              rw [not_not] at hcurrent
              dsimp only
              split
              · exact (World.Adds.refl _).log trivial
              · have hone :=
                  (commitOneHook_spec engines .single plan.runtime plan.planId plan.ownerId
                  hook.preparedContinuation hook hook.result st.ledger st.world).world
                generalize commitOneHook engines .single plan.runtime plan.planId plan.ownerId
                  hook.preparedContinuation hook hook.result st.ledger st.world =
                    committed at hone ⊢
                obtain ⟨mid, required, published, hadds, hmid, -, -⟩ := hone
                show st.world.Adds Event.Current committed.2.2
                rw [hmid]
                refine (hadds.mono ?_).log trivial
                rintro e ⟨rfl, -⟩
                exact hcurrent

theorem markDomainCommitPreflightFailed_stale (generation : Nat) (domain : Id) {hooks : List Hook}
    (w : World ε) (hmem : hook ∈ hooks) (hdomain : hook.spec.domain = some domain)
    (hprepared : hook.result.outcome = .prepared)
    (hstale : hook.result.imageGeneration ≠ generation) :
    ∃ hook' ∈ (markDomainCommitPreflightFailed engines generation domain hooks w).1,
      hook'.hookId = hook.hookId ∧ hook'.result.outcome = .stalePlan := by
  induction hooks generalizing w with
  | nil => exact absurd hmem List.not_mem_nil
  | cons first rest ih =>
    rw [markDomainCommitPreflightFailed]
    rcases List.mem_cons.mp hmem with rfl | hmem
    · rw [if_pos ⟨hdomain, hprepared⟩]
      refine ⟨_, List.mem_cons_self, rfl, ?_⟩
      show (preflightResult generation hook.result).outcome = .stalePlan
      rw [preflightResult, if_pos hstale]
    · split
      · obtain ⟨hook', hmem', h⟩ := ih (settle engines .single first
          (preflightResult generation first.result) none 0 w).2 hmem
        exact ⟨hook', List.mem_cons_of_mem _ hmem', h⟩
      · obtain ⟨hook', hmem', h⟩ := ih w hmem
        exact ⟨hook', List.mem_cons_of_mem _ hmem', h⟩

/-- A hook that is stale when a pass comes to it, and does not start a wave, is settled as stale. -/
theorem commitIter_stale (hreached : st.reached plan = some hook)
    (hstale : hook.result.imageGeneration ≠ st.world.env.generation plan.runtime)
    (hcount : ¬1 < st.waveCount engines plan) :
    ∃ hook' ∈ (commitIter engines plan st).state.hooks,
      hook'.hookId = hook.hookId ∧ hook'.result.outcome = .stalePlan := by
  obtain ⟨index, horder, hget, hprepared⟩ := CommitState.reached_eq_some.mp hreached
  rw [CommitState.waveCount] at hcount
  rw [commitIter, horder]
  dsimp only
  rw [hget]
  dsimp only
  rw [if_neg (not_not.mpr hprepared), if_neg hcount, Flow.state_next]
  split
  · rename_i domain hrefused
    have hdomain : hook.spec.domain = some domain := by
      rw [domainRefused] at hrefused
      split at hrefused
      · cases hrefused
      · rename_i domain' hsome
        split at hrefused
        · rw [hsome, hrefused]
        · cases hrefused
    exact markDomainCommitPreflightFailed_stale engines _ domain st.world
      (List.mem_of_getElem? hget) hdomain hprepared hstale
  · rw [commitSingle, if_pos hstale]
    exact ⟨_, List.mem_set (List.getElem?_eq_some_iff.mp hget).1 _, rfl, rfl⟩

theorem Visits.iter {index : Nat} (h : Visits plan st index hook)
    (hcount : 1 < st.waveCount engines plan) :
    commitIter engines plan st = commitGroup engines plan (st.waveCount engines plan) st := by
  rw [commitIter, h.order]
  dsimp only
  rw [h.get]
  dsimp only
  rw [if_neg (not_not.mpr h.prepared)]
  exact if_pos hcount

/-- A hook that starts a wave is not settled as stale, whatever it recorded. -/
theorem commitIter_wave (hvalid : ∀ i ∈ plan.order, i < st.hooks.length) (hnodup : plan.order.Nodup)
    (hreached : st.reached plan = some hook) (hcount : 1 < st.waveCount engines plan) :
    (∃ w, commitIter engines plan st = .stop { st with world := w }) ∨
      ∃ hook' ∈ (commitIter engines plan st).state.hooks,
        hook'.hookId = hook.hookId ∧ hook'.result.outcome.isVerdict = true := by
  obtain ⟨index, hvisits⟩ := CommitState.reached_eq_some.mp hreached
  obtain ⟨rest, hselected⟩ := hvisits.selected hvalid hcount
  rw [hvisits.iter engines hcount]
  rcases commitGroup_cases engines plan _ st hselected.wave hselected.commits with
    ⟨w, -, hstop⟩ | ⟨settled, ledger, w₁, w', hcommitted, hnext⟩
  · exact .inl ⟨w, hstop⟩
  · rw [hnext]
    refine .inr ?_
    obtain ⟨hook', hmem', hsettles⟩ := Pointwise.mem_left hcommitted.settles List.mem_cons_self
    refine ⟨hook', mem_writeBack ?_ ?_ ?_ hmem', hsettles.hookId, hsettles.verdict⟩
    · exact fun i hi ↦ hvalid i (List.mem_of_mem_drop (List.mem_of_mem_take hi))
    · exact (hnodup.sublist (List.drop_sublist _ _)).sublist (List.take_sublist _ _)
    · rw [← hcommitted.settles.length_eq, ← hselected.wave]
      exact List.length_filterMap_le _ _

/-- A wave that reaches its engine when the catalog has moved hands its second member over in
another generation. -/
theorem commitIter_moved (hvalid : ∀ i ∈ plan.order, i < st.hooks.length)
    (hreached : st.reached plan = some hook) (hcount : 1 < st.waveCount engines plan) {w : World ε}
    (hw : w ∈ waveReached engines plan (st.waveCount engines plan) st)
    (hmoved : w.env.generation plan.runtime ≠ st.world.env.generation plan.runtime) :
    ∃ member ∈ st.hooks, member.result.outcome = .prepared ∧ ∃ c, c.hook = member.hookId ∧
      c.recorded ≠ c.current ∧
      .commitCall c ∈ (commitIter engines plan st).state.world.history := by
  obtain ⟨index, hvisits⟩ := CommitState.reached_eq_some.mp hreached
  obtain ⟨rest, hselected⟩ := hvisits.selected hvalid hcount
  obtain ⟨member, hmem⟩ := List.exists_mem_of_ne_nil rest hselected.others
  have hwave : member ∈ waveHooks plan (st.waveCount engines plan) st := by
    rw [hselected.wave]
    exact List.mem_cons_of_mem hook hmem
  have hcommit := hselected.commits
  rw [← hselected.engine] at hcommit
  rw [hvisits.iter engines hcount]
  refine ⟨member, hooksAt_mem hwave, hselected.prepared member hmem, _, ?_, ?_,
    (commitGroup_reached engines hcommit).2 w hw member hwave⟩
  · rfl
  · show member.result.imageGeneration ≠ w.env.generation plan.runtime
    rw [hselected.current member hmem]
    exact hmoved.symm

end CommitPass

/-! ### The call -/

section Commit

variable {runtime : Runtime} {plan : Plan} {w : World ε} {pass : CommitPlan × CommitState ε}
  {hook : Hook}

/-- The states in which a call of `hk_plan_commit` starts a pass, with what its loop knows. -/
def commitPasses (runtime : Runtime) (plan : Plan) (w : World ε) :
    List (CommitPlan × CommitState ε) :=
  if plan.state ≠ .prepared ∧ plan.state ≠ .partly then []
  else
    match allocCommit plan w with
    | (none, _) => []
    | (some order, w) =>
      (commitVisited engines (plan.toCommit runtime order) plan.hooks w).map
        (plan.toCommit runtime order, ·)

/-- A call of `hk_plan_commit` either starts no pass or runs its loop. -/
theorem commitPlan_passes (runtime : Runtime) (plan : Plan) (w : World ε) :
    commitPasses engines runtime plan w = [] ∧
        w.Quiet (fun _ ↦ False) (commitPlan engines runtime plan w).2.2.2 ∨
      ∃ order w₁, w.Quiet (fun _ ↦ False) w₁ ∧ order.Nodup ∧
        (∀ i ∈ order, i < plan.hooks.length) ∧
        commitPasses engines runtime plan w =
          (commitVisited engines (plan.toCommit runtime order) plan.hooks w₁).map
            (plan.toCommit runtime order, ·) ∧
        (commitPlan engines runtime plan w).2.1.hooks =
          (commitLoop engines (plan.toCommit runtime order) plan.hooks w₁).state.hooks ∧
        (commitLoop engines (plan.toCommit runtime order) plan.hooks w₁).state.world.Quiet
          (fun _ ↦ False) (commitPlan engines runtime plan w).2.2.2 := by
  rw [commitPasses, commitPlan]
  split
  · exact .inl ⟨rfl, .refl w⟩
  · obtain ⟨hbefore, horder⟩ := allocCommit_spec (Q := fun _ ↦ False) plan w
    generalize allocCommit plan w = allocated at hbefore horder ⊢
    obtain ⟨order?, w₁⟩ := allocated
    cases order? with
    | none => exact .inl ⟨rfl, hbefore⟩
    | some order =>
      obtain ⟨hnodup, hprepared⟩ := horder order rfl
      refine .inr ⟨order, w₁, hbefore, hnodup, fun i hi ↦ (hprepared i hi).lt, rfl, ?_⟩
      dsimp only
      rw [← Plan.toCommit]
      cases commitLoop engines (plan.toCommit runtime order) plan.hooks w₁ with
      | stop st => exact ⟨rfl, .refl _⟩
      | next st =>
        dsimp only [Flow.state_next]
        have hreport := createReport_quiet (Q := fun _ ↦ False) plan.hooks.length st.world
        generalize createReport plan.hooks.length st.world = report at hreport ⊢
        obtain ⟨ok, w₂⟩ := report
        cases ok with
        | false => exact ⟨rfl, hreport⟩
        | true => exact ⟨rfl, hreport.trans (publishArtifacts_spec runtime st.ledger w₂).2⟩

/-- What becomes of one settled hook in a pass. -/
theorem commitIter_keeps {plan : CommitPlan} {st : CommitState ε}
    (hvalid : ∀ i ∈ plan.order, i < st.hooks.length) (hnodup : plan.order.Nodup)
    (P : Outcome → Prop) (hP : ∀ o, P o → o ≠ .prepared) {id : Id}
    (h : ∃ hook ∈ st.hooks, hook.hookId = id ∧ P hook.result.outcome) :
    ∃ hook ∈ (commitIter engines plan st).state.hooks,
      hook.hookId = id ∧ P hook.result.outcome := by
  obtain ⟨hook, hmem, hid, hout⟩ := h
  obtain ⟨hook', hmem', hcommits⟩ := Pointwise.mem_left
    ((commitIter_pass engines plan st hvalid).commits hvalid hnodup) hmem
  rcases hcommits.outcome with rfl | ⟨hprepared, -⟩
  · exact ⟨hook', hmem', hid, hout⟩
  · exact absurd hprepared (hP _ hout)

/-- A commit whose waves are current hands nobody over in another generation. -/
theorem commitPlan_current (hwaves : ∀ pass ∈ commitPasses engines runtime plan w,
      pass.2.WaveCurrent engines pass.1) :
    w.Adds Event.Current (commitPlan engines runtime plan w).2.2.2 := by
  rcases commitPlan_passes engines runtime plan w with
    ⟨-, hquiet⟩ | ⟨order, w₁, hbefore, hnodup, hvalid, hpasses, -, hafter⟩
  · exact hquiet.toAdds.mono fun _ ↦ False.elim
  · rw [hpasses] at hwaves
    have hloop : w₁.Adds Event.Current
          (commitLoop engines (plan.toCommit runtime order) plan.hooks w₁).state.world ∧
        (commitLoop engines (plan.toCommit runtime order) plan.hooks w₁).state.hooks.length =
          plan.hooks.length := by
      refine run_invariant_visited (fun st : CommitState ε ↦
        w₁.Adds Event.Current st.world ∧ st.hooks.length = plan.hooks.length) _
        (fun st hmem ⟨hadds, hlength⟩ ↦ ⟨hadds.trans ?_, ?_⟩) ⟨.refl w₁, rfl⟩
      · exact commitIter_current engines (fun i hi ↦ hlength ▸ hvalid i hi)
          (hwaves (_, st) (List.mem_map_of_mem hmem))
      · exact (commitIter_pass_of_length hnodup hvalid hlength).2
    exact ((hbefore.toAdds.mono fun _ ↦ False.elim).trans hloop.1).trans
      (hafter.toAdds.mono fun _ ↦ False.elim)

/-- A pass of a commit: how it comes about, and what the call leaves of it. -/
structure PassOf (engines : EngineRef → Engine ε) (runtime : Runtime) (plan : Plan) (w : World ε)
    (cplan : CommitPlan) (st : CommitState ε) : Prop where
  nodup : cplan.order.Nodup
  valid : ∀ i ∈ cplan.order, i < st.hooks.length
  commits : List.Forall₂ Hook.Commits plan.hooks st.hooks
  before : w.Adds (fun _ ↦ True) st.world
  after : (commitIter engines cplan st).state.world.Adds (fun _ ↦ True)
    (commitPlan engines runtime plan w).2.2.2
  /-- A pass that runs out of memory is the last one. -/
  stopped : ∀ w', commitIter engines cplan st = .stop { st with world := w' } →
    (commitPlan engines runtime plan w).2.1.hooks = st.hooks
  /-- A verdict stays. -/
  keeps : ∀ (P : Outcome → Prop) (id : Id), (∀ o, P o → o ≠ .prepared) →
    (∃ hook ∈ (commitIter engines cplan st).state.hooks, hook.hookId = id ∧ P hook.result.outcome) →
    ∃ hook ∈ (commitPlan engines runtime plan w).2.1.hooks,
      hook.hookId = id ∧ P hook.result.outcome

theorem commitPlan_pass (hmem : pass ∈ commitPasses engines runtime plan w) :
    PassOf engines runtime plan w pass.1 pass.2 := by
  rcases commitPlan_passes engines runtime plan w with
    ⟨hnone, -⟩ | ⟨order, w₁, hbefore, hnodup, hvalid, hpasses, hhooks, hafter⟩
  · rw [hnone] at hmem
    exact absurd hmem List.not_mem_nil
  · rw [hpasses] at hmem
    obtain ⟨st, hvisited, rfl⟩ := List.mem_map.mp hmem
    have hstart : w₁.Adds (fun _ ↦ True) (CommitState.start plan.hooks w₁).world := .refl w₁
    have hkeep : ∀ st : CommitState ε, List.Forall₂ Hook.Commits plan.hooks st.hooks →
        (∀ i ∈ order, i < st.hooks.length) ∧ CommitPass engines (plan.toCommit runtime order) st
          (commitIter engines (plan.toCommit runtime order) st) := by
      intro st hcommits
      have hvalid' : ∀ i ∈ order, i < st.hooks.length :=
        fun i hi ↦ hcommits.length_eq ▸ hvalid i hi
      exact ⟨hvalid', commitIter_pass engines (plan.toCommit runtime order) st hvalid'⟩
    obtain ⟨-, ⟨hcommits, hadds⟩, hend⟩ := visited_invariant (fun st : CommitState ε ↦
        List.Forall₂ Hook.Commits plan.hooks st.hooks ∧ w₁.Adds (fun _ ↦ True) st.world) _ hvisited
      (fun st _ ⟨hcommits, hadds⟩ ↦
        ⟨Pointwise.trans (fun _ _ _ ↦ .trans) hcommits
            ((hkeep st hcommits).2.commits (hkeep st hcommits).1 hnodup),
          hadds.trans (hkeep st hcommits).2.adds⟩)
      ⟨Pointwise.refl .refl _, hstart⟩
    refine ⟨hnodup, (hkeep st hcommits).1, hcommits,
      (hbefore.toAdds.mono fun _ ↦ False.elim).trans hadds, ?_, fun w' hstop ↦ ?_,
      fun P id hP h ↦ ?_⟩
    · refine World.Adds.trans ?_ (hafter.toAdds.mono fun _ ↦ False.elim)
      exact hend (fun st' ↦ (commitIter engines (plan.toCommit runtime order) st).state.world.Adds
        (fun _ ↦ True) st'.world) (.refl _) fun st' _ hst' hadds' ↦
          hadds'.trans (hkeep st' hst'.1).2.adds
    · have hrun : commitLoop engines (plan.toCommit runtime order) plan.hooks w₁ =
          .stop { st with world := w' } := run_of_visited_stop hvisited hstop
      rw [hhooks, hrun]
      rfl
    · rw [hhooks]
      exact hend (fun st' ↦ ∃ hook ∈ st'.hooks, hook.hookId = id ∧ P hook.result.outcome) h
        fun st' _ hst' h' ↦ commitIter_keeps engines (hkeep st' hst'.1).1 hnodup P hP h'

end Commit

/-! ## The gate -/

namespace System

variable {engines} {stripCode : Ptr → Ptr} {s : System ε} {slot : Nat}

/-- The hook with this identifier is left stale, and no engine was ever asked to commit it. -/
def EndsStale (s : System ε) (slot : Nat) (id : Id) : Prop :=
  ∃ hook ∈ s.planHooks slot, hook.hookId = id ∧ hook.result.outcome = .stalePlan ∧
    ∀ c, .commitCall c ∈ s.world.history → c.hook ≠ id

/-- The hooks that a call comes to when the catalog is not in the generation they recorded. -/
def staleReached (engines : EngineRef → Engine ε) (s : System ε) : Op ε → List Hook
  | .prepare slot =>
    match s.plans slot with
    | none => []
    | some plan => (preparePasses engines plan s.world).filterMap fun st ↦
      st.reached.filter fun hook ↦
        hook.result.imageGeneration ≠ st.world.env.generation plan.runtime
  | .commit slot =>
    match s.plans slot with
    | none => []
    | some plan =>
      (commitPasses engines (s.runtimes plan.runtime) plan s.world).filterMap fun pass ↦
        (pass.2.reached pass.1).filter fun hook ↦
          hook.result.imageGeneration ≠ pass.2.world.env.generation pass.1.runtime
  | _ => []

/-- **The staleness gate of a call**: nobody is handed to an engine in another generation than the
one recorded, and who is come to in another one ends stale. -/
def StalenessGate (engines : EngineRef → Engine ε) (stripCode : Ptr → Ptr) (s : System ε)
    (op : Op ε) : Prop :=
  match op with
  | .prepare slot | .commit slot =>
    let s' := s.step engines stripCode op
    (∀ e, Since s.world.history s'.world.history e → e.Current) ∧
      ∀ hook ∈ s.staleReached engines op, s'.EndsStale slot hook.hookId
  | _ => True

/-- The waves of a call start with a current hook, and stay current until they reach their engine.
-/
def WavesCurrent (engines : EngineRef → Engine ε) (s : System ε) : Op ε → Prop
  | .prepare slot => ∀ plan, s.plans slot = some plan →
    ∀ st ∈ preparePasses engines plan s.world, st.WaveCurrent engines plan.runtime
  | .commit slot => ∀ plan, s.plans slot = some plan →
    ∀ pass ∈ commitPasses engines (s.runtimes plan.runtime) plan s.world,
      pass.2.WaveCurrent engines pass.1
  | _ => True

/-- A stale hook of a sound process was never handed to a commit callback. -/
theorem Sound.endsStale (hs : s.Sound) {id : Id}
    (h : ∃ hook ∈ s.planHooks slot, hook.hookId = id ∧ hook.result.outcome = .stalePlan) :
    s.EndsStale slot id := by
  obtain ⟨hook, hmem, hid, hstale⟩ := h
  refine ⟨hook, hmem, hid, hstale, fun c hc heq ↦ ?_⟩
  have hacc := hs.accounted (.slot slot) hook hmem
  obtain ⟨r, hr, hrid, hne⟩ := hacc.called c hc (heq.trans hid.symm)
  exact hne ((hacc.settled r hr hrid).1.trans hstale)

/-- There is one hook with an identifier. -/
theorem Sound.not_endsStale (hs : s.Sound) {id : Id}
    (h : ∃ hook ∈ s.planHooks slot, hook.hookId = id ∧ hook.result.outcome ≠ .stalePlan) :
    ¬s.EndsStale slot id := by
  obtain ⟨hook, hmem, hid, hne⟩ := h
  rintro ⟨hook', hmem', hid', hstale, -⟩
  have hnodup : ((s.planHooks slot).map Hook.hookId).Nodup := hs.nodup (.slot slot)
  rw [eq_of_hookId hnodup hmem hmem' (hid.trans hid'.symm)] at hne
  exact hne hstale

theorem step_prepare (engines : EngineRef → Engine ε) (stripCode : Ptr → Ptr) {plan : Plan}
    (hplan : s.plans slot = some plan) :
    (s.step engines stripCode (.prepare slot)).planHooks slot =
        (preparePlan engines plan s.world).2.1.hooks ∧
      (s.step engines stripCode (.prepare slot)).world =
      (preparePlan engines plan s.world).2.2 := by
  rw [step, onPlan, hplan]
  refine ⟨planHooks_some ?_, rfl⟩
  exact Function.update_self slot _ s.plans

theorem step_commit (engines : EngineRef → Engine ε) (stripCode : Ptr → Ptr) {plan : Plan}
    (hplan : s.plans slot = some plan) :
    (s.step engines stripCode (.commit slot)).planHooks slot =
        (commitPlan engines (s.runtimes plan.runtime) plan s.world).2.1.hooks ∧
      (s.step engines stripCode (.commit slot)).world =
        (commitPlan engines (s.runtimes plan.runtime) plan s.world).2.2.2 := by
  rw [step, onPlan, hplan]
  refine ⟨planHooks_some ?_, rfl⟩
  exact Function.update_self slot _ s.plans

/-- A call on an empty slot does nothing. -/
theorem step_empty (hplan : s.plans slot = none) :
    s.step engines stripCode (.prepare slot) = s ∧ s.step engines stripCode (.commit slot) = s := by
  constructor <;> rw [step, onPlan, hplan]

theorem Sound.prepareGate_iff (hs : s.Sound) (slot : Nat) :
    s.StalenessGate engines stripCode (.prepare slot) ↔ s.WavesCurrent engines (.prepare slot) := by
  have hs' : (s.step engines stripCode (.prepare slot)).Sound :=
    hs.stepped (step_stepped engines stripCode s (.prepare slot))
  cases hplan : s.plans slot with
  | none =>
    refine iff_of_true ⟨fun e he ↦ ?_, fun hook hmem ↦ ?_⟩ fun plan h ↦ ?_
    · rw [(step_empty hplan).1] at he
      exact (Adds.refl Event.Current _).since he
    · rw [staleReached, hplan] at hmem
      exact absurd hmem List.not_mem_nil
    · rw [hplan] at h
      cases h
  | some plan =>
    obtain ⟨hhooks, hworld⟩ := step_prepare engines stripCode hplan
    have hidle : plan.state = .analyzed → ∀ hook ∈ plan.hooks, hook.Idle :=
      fun hstate hook hmem ↦ ((hs.plans slot plan hplan).uncommitted (.inr hstate) hook hmem).2
    constructor
    · rintro ⟨-, hstale⟩ plan' hplan' st hmem hcount hook hreached
      cases hplan.symm.trans hplan'
      by_contra hne
      refine hs'.not_endsStale ?_ (hstale hook ?_)
      · rw [hhooks]
        exact preparePlan_wave engines hidle hmem hreached hcount
      · rw [staleReached, hplan]
        exact List.mem_filterMap.mpr ⟨st, hmem,
          Option.filter_eq_some_iff.mpr ⟨hreached, decide_eq_true hne⟩⟩
    · intro hwaves
      refine ⟨fun e he ↦ ?_, fun hook hmem ↦ hs'.endsStale ?_⟩
      · rw [hworld] at he
        exact (preparePlan_current engines hidle (hwaves plan hplan)).history.since he
      · rw [staleReached, hplan] at hmem
        obtain ⟨st, hmem, hfilter⟩ := List.mem_filterMap.mp hmem
        obtain ⟨hreached, hne⟩ := Option.filter_eq_some_iff.mp hfilter
        rw [hhooks]
        exact preparePlan_stale engines hmem hreached (of_decide_eq_true hne)
          (hwaves plan hplan st hmem)

/-- A wave that was moved hands a member over in another generation. -/
theorem Sound.moved_not_current (hs : s.Sound) {plan : Plan} (hplan : s.plans slot = some plan)
    {pass : CommitPlan × CommitState ε} {hook : Hook} {w : World ε}
    (hpass : PassOf engines (s.runtimes plan.runtime) plan s.world pass.1 pass.2)
    (hreached : pass.2.reached pass.1 = some hook) (hcount : 1 < pass.2.waveCount engines pass.1)
    (hw : w ∈ waveReached engines pass.1 (pass.2.waveCount engines pass.1) pass.2)
    (hmoved : w.env.generation pass.1.runtime ≠ pass.2.world.env.generation pass.1.runtime) :
    ∃ e, Since s.world.history
      (commitPlan engines (s.runtimes plan.runtime) plan s.world).2.2.2.history e ∧ ¬e.Current := by
  obtain ⟨member, hmem, hprepared, c, hid, hne, hcalled⟩ :=
    commitIter_moved engines hpass.valid hreached hcount hw hmoved
  have hadds : s.world.Adds (fun _ ↦ True)
      (commitPlan engines (s.runtimes plan.runtime) plan s.world).2.2.2 :=
    hpass.before.trans (World.Adds.trans
      (commitIter_pass engines pass.1 pass.2 hpass.valid).adds hpass.after)
  refine ⟨.commitCall c, hadds.history.since_of_notMem
    (hpass.after.history.mem_old hcalled) ?_, hne⟩
  -- the member is still prepared, so nobody called an engine about it before
  intro hold
  obtain ⟨before, hbefore, hcommits⟩ := Pointwise.mem_right hpass.commits hmem
  have hacc := hs.accounted_plan hplan before hbefore
  obtain ⟨r, hr, hrid, -⟩ := hacc.called c hold (hid.trans hcommits.hookId)
  obtain ⟨houtcome, hfinal⟩ := hacc.settled r hr hrid
  rw [houtcome] at hfinal
  rcases hcommits.outcome with rfl | ⟨h, -⟩
  · rw [hprepared] at hfinal
    cases hfinal
  · rw [h] at hfinal
    cases hfinal

theorem Sound.commitGate_iff (hs : s.Sound) (slot : Nat) :
    s.StalenessGate engines stripCode (.commit slot) ↔ s.WavesCurrent engines (.commit slot) := by
  have hs' : (s.step engines stripCode (.commit slot)).Sound :=
    hs.stepped (step_stepped engines stripCode s (.commit slot))
  cases hplan : s.plans slot with
  | none =>
    refine iff_of_true ⟨fun e he ↦ ?_, fun hook hmem ↦ ?_⟩ fun plan h ↦ ?_
    · rw [(step_empty hplan).2] at he
      exact (Adds.refl Event.Current _).since he
    · rw [staleReached, hplan] at hmem
      exact absurd hmem List.not_mem_nil
    · rw [hplan] at h
      cases h
  | some plan =>
    obtain ⟨hhooks, hworld⟩ := step_commit engines stripCode hplan
    constructor
    · rintro ⟨hcurrent, hstale⟩ plan' hplan' pass hmem hcount hook hreached
      cases hplan.symm.trans hplan'
      have hpass := commitPlan_pass engines hmem
      refine ⟨?_, fun w hw ↦ ?_⟩
      · by_contra hne
        refine hs'.not_endsStale ?_ (hstale hook ?_)
        · rw [hhooks]
          rcases commitIter_wave engines hpass.valid hpass.nodup hreached hcount with
            ⟨w, hstop⟩ | ⟨hook', hmem', hid, hverdict⟩
          · -- out of memory: the hook stays as it was
            obtain ⟨index, hvisits⟩ := CommitState.reached_eq_some.mp hreached
            rw [hpass.stopped w hstop]
            refine ⟨hook, List.mem_of_getElem? hvisits.get, rfl, ?_⟩
            rw [hvisits.prepared]
            exact nofun
          · obtain ⟨last, hlast, hid', hverdict'⟩ := hpass.keeps (fun o ↦ o.isVerdict = true)
              hook.hookId (by rintro _ h rfl; cases h) ⟨hook', hmem', hid, hverdict⟩
            exact ⟨last, hlast, hid', Outcome.ne_stale_of_isVerdict hverdict'⟩
        · rw [staleReached, hplan]
          exact List.mem_filterMap.mpr ⟨pass, hmem,
            Option.filter_eq_some_iff.mpr ⟨hreached, decide_eq_true hne⟩⟩
      · by_contra hmoved
        obtain ⟨e, he, hne⟩ := hs.moved_not_current hplan hpass hreached hcount hw hmoved
        rw [← hworld] at he
        exact hne (hcurrent e he)
    · intro hwaves
      refine ⟨fun e he ↦ ?_, fun hook hmem ↦ hs'.endsStale ?_⟩
      · rw [hworld] at he
        exact (commitPlan_current engines (hwaves plan hplan)).history.since he
      · rw [staleReached, hplan] at hmem
        obtain ⟨pass, hmem, hfilter⟩ := List.mem_filterMap.mp hmem
        obtain ⟨hreached, hne⟩ := Option.filter_eq_some_iff.mp hfilter
        have hne := of_decide_eq_true hne
        rw [hhooks]
        refine (commitPlan_pass engines hmem).keeps (· = .stalePlan) hook.hookId
          (by rintro _ rfl h; cases h) (commitIter_stale engines hreached hne fun hcount ↦ hne ?_)
        exact (hwaves plan hplan pass hmem hcount hook hreached).1

/-- **The staleness gate holds in a run exactly where the waves are current.** -/
theorem stalenessGate_iff (engines : EngineRef → Engine ε) (stripCode : Ptr → Ptr) {s : System ε}
    (hstart : s.Initial) (ops : List (Op ε)) :
    Meets engines stripCode (StalenessGate engines stripCode) s ops ↔
      Meets engines stripCode (WavesCurrent engines) s ops := by
  refine Meets.congr Sound (fun s op h ↦ h.stepped (step_stepped engines stripCode s op))
    (fun s op h ↦ ?_) hstart.sound ops
  cases op with
  | prepare slot => exact h.prepareGate_iff slot
  | commit slot => exact h.commitGate_iff slot
  | _ => exact Iff.rfl

end System

/-! ## A catalog that moves -/

/-- An engine with waves whose discovery loads an image. -/
def Engine.loading : Engine Unit :=
  { Engine.transactional (fun _ ↦ .ok) Operation.same with
    discover := some fun env ↦
      (true, { env with generation := fun runtime ↦ env.generation runtime + 1 })
    prepareGroupCtx := some fun _ env ↦ (⟨true, fun _ ↦ ⟨.ok, 1, .zero⟩⟩, env) }

/-- A plan with two hooks, from its creation to its commit. -/
def Op.hookTwo : List (Op Unit) :=
  [.createPlan 0 0, .addHook 0 (.atAddress "first" 0x1000 1),
    .addHook 0 (.atAddress "second" 0x2000 2), .analyze 0, .prepare 0, .commit 0]

theorem System.stalenessGate_iff_hookTwo :
    System.Meets (fun _ ↦ .restoring fun _ ↦ .ok) id
        (System.StalenessGate (fun _ ↦ .restoring fun _ ↦ .ok) id) (System.fresh () fun _ ↦ 0)
        Op.hookTwo ↔
      System.Meets (fun _ ↦ .restoring fun _ ↦ .ok) id
        (System.WavesCurrent fun _ ↦ .restoring fun _ ↦ .ok) (System.fresh () fun _ ↦ 0)
        Op.hookTwo :=
  System.stalenessGate_iff _ id (System.fresh_initial () fun _ ↦ 0) Op.hookTwo

/-- The catalog moves when the second hook is analyzed, so the first one is stale from then on; it
starts a wave in both calls, and is handed over in both. -/
theorem System.stalenessGate_loading :
    let s := System.fresh () fun _ ↦ 0
    s.Initial ∧
      ¬System.Meets (fun _ ↦ .loading) id (System.StalenessGate (fun _ ↦ .loading) id) s
        Op.hookTwo ∧
      ∃ c ∈ commitCalls (s.run (fun _ ↦ .loading) id Op.hookTwo).world.history,
        c.recorded ≠ c.current := by
  refine ⟨System.fresh_initial () fun _ ↦ 0, fun h ↦ ?_, by decide +kernel⟩
  have hgate := h.2.2.2.2.1
  have hbefore : ((System.fresh () fun _ ↦ 0).run (fun _ ↦ Engine.loading) id
      (Op.hookTwo.take 4)).world.history = [] := List.isEmpty_iff.mp (by decide +kernel)
  obtain ⟨e, hmem, hne⟩ : ∃ e ∈ ((System.fresh () fun _ ↦ 0).run (fun _ ↦ Engine.loading) id
      (Op.hookTwo.take 5)).world.history, ¬e.Current := by decide +kernel
  refine hne (hgate.1 e ⟨_, ?_, hmem⟩)
  exact (List.append_nil _).symm.trans (congrArg _ hbefore.symm)

end HookKit
