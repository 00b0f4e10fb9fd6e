import HookKit.Lib.Pointwise
import HookKit.Plan.HookSteps
import HookKit.Plan.Prepare

/-!
# What preparation does

Everything a pass of the loop in `hk_plan_prepare` may do to the hooks of the plan and to the
process, from the small functions up to the whole call.

* `Hook.Prepares` — what may become of one hook.
* `PrepareState.Moves` — what may become of the state of the loop.
* `prepareLoop_finished` — the loop comes to the last hook.
* `preparePlan_spec engines` — what a call leaves of the plan.
-/

set_option autoImplicit false

namespace HookKit

open Loop

variable {ε : Type} (engines : EngineRef → Engine ε) {ids : List Id}

/-! ## One hook -/

/-- Which outcomes preparation replaces by which: a hook with a route gets any verdict, and one that
was prepared is at most taken back. -/
def Outcome.preparesTo : Outcome → Outcome → Prop
  | .analyzed, o => o = .analyzed ∨ o = .prepared ∨ o = .pending ∨ o = .noRoute ∨ o = .failedSafe ∨
      o = .stalePlan
  | .prepared, o => o = .prepared ∨ o = .failedSafe
  | o, o' => o' = o

theorem Outcome.preparesTo.refl (o : Outcome) : o.preparesTo o := by
  cases o <;> first | rfl | exact .inl rfl

theorem Outcome.preparesTo.trans {o₁ o₂ o₃ : Outcome} (h : o₁.preparesTo o₂)
    (h' : o₂.preparesTo o₃) : o₁.preparesTo o₃ := by
  cases o₁ <;> cases o₂ <;> simp_all only [Outcome.preparesTo, reduceCtorEq, or_false, false_or]
  -- what is left is a hook that was prepared in between
  rcases h' with rfl | rfl <;> simp

/-- The engine's state is only kept by prepared hooks. -/
def Hook.Idle (h : Hook) : Prop := h.result.outcome ≠ .prepared → h.preparedState = 0

/-- A prepared hook had no effects but those its engine declares. -/
def Hook.Declared (engines : EngineRef → Engine ε) (h : Hook) : Prop :=
  h.result.outcome = .prepared →
    h.result.observedPrepareEffects &&& ~~~(h.caps engines).prepareEffects = 0

/-- A hook that is not prepared shows nothing. -/
theorem Hook.Declared.of_ne {engines : EngineRef → Engine ε} {h : Hook}
    (hne : h.result.outcome ≠ .prepared) : h.Declared engines := fun heq ↦ absurd heq hne

/-- What preparation may make of a hook. -/
structure Hook.Prepares (engines : EngineRef → Engine ε) (h h' : Hook) : Prop
    extends Hook.Same h h' where
  installed : h'.installed = h.installed
  generation : h'.result.imageGeneration = h.result.imageGeneration
  outcome : h.result.outcome.preparesTo h'.result.outcome
  idle : h.Idle → h'.Idle
  declared : h.Declared engines → h'.Declared engines
  commitEffects : h'.result.observedCommitEffects = h.result.observedCommitEffects

theorem Hook.Prepares.refl {engines : EngineRef → Engine ε} (h : Hook) : h.Prepares engines h :=
  ⟨.refl h, rfl, rfl, .refl _, id, id, rfl⟩

theorem Hook.Prepares.trans {engines : EngineRef → Engine ε} {h₁ h₂ h₃ : Hook}
    (h : h₁.Prepares engines h₂) (h' : h₂.Prepares engines h₃) : h₁.Prepares engines h₃ :=
  ⟨h.toSame.trans h'.toSame, h'.installed.trans h.installed, h'.generation.trans h.generation,
    h.outcome.trans h'.outcome, h'.idle ∘ h.idle, h'.declared ∘ h.declared,
    h'.commitEffects.trans h.commitEffects⟩

theorem prepares_keepsIds {engines : EngineRef → Engine ε} {hooks hooks' : List Hook}
    (h : List.Forall₂ (Hook.Prepares engines) hooks hooks')
    (hids : ∀ h ∈ hooks, h.hookId ∈ ids) : ∀ h ∈ hooks', h.hookId ∈ ids := by
  intro hook' hmem
  obtain ⟨hook, hhook, hprepares⟩ := Pointwise.mem_right h hmem
  rw [hprepares.hookId]
  exact hids hook hhook

/-- What a pass may make of the state of the loop, adding events that satisfy `Q`. -/
structure PrepareState.Moves (engines : EngineRef → Engine ε) (Q : Event → Prop)
    (st st' : PrepareState ε) : Prop where
  hooks : List.Forall₂ (Hook.Prepares engines) st.hooks st'.hooks
  world : st.world.Quiet Q st'.world

namespace PrepareState.Moves

variable {engines} {Q Q' : Event → Prop} {st st₁ st₂ : PrepareState ε}

theorem refl (st : PrepareState ε) : Moves engines Q st st :=
  ⟨Pointwise.refl .refl _, .refl _⟩

theorem trans (h : Moves engines Q st st₁) (h' : Moves engines Q st₁ st₂) :
    Moves engines Q st st₂ :=
  ⟨Pointwise.trans (fun _ _ _ ↦ Hook.Prepares.trans) h.hooks h'.hooks, h.world.trans h'.world⟩

theorem mono (h : Moves engines Q st st₁) (himp : ∀ e, Q e → Q' e) : Moves engines Q' st st₁ :=
  ⟨h.hooks, h.world.mono himp⟩

theorem keepsIds (h : Moves engines Q st st₁) (hids : ∀ h ∈ st.hooks, h.hookId ∈ ids) :
    ∀ h ∈ st₁.hooks, h.hookId ∈ ids := prepares_keepsIds h.hooks hids

end PrepareState.Moves

/-! ## Rolling a domain back -/

theorem releaseDomainMembers_spec (domain : Id) {hooks : List Hook}
    (hids : ∀ h ∈ hooks, h.hookId ∈ ids) (w : World ε) :
    List.Forall₂ (Hook.Prepares engines) hooks (releaseDomainMembers engines domain hooks w).1 ∧
      w.Quiet (Event.ofAnswer ids) (releaseDomainMembers engines domain hooks w).2.2 := by
  induction hooks generalizing w with
  | nil => exact ⟨.nil, .refl w⟩
  | cons hook rest ih =>
    have ih := ih fun h hh ↦ hids h (List.mem_cons_of_mem hook hh)
    rw [releaseDomainMembers]
    split
    · rename_i hmember
      have htouched := releasePrepared_touched engines hook w
      have hquiet : w.Quiet (Event.ofAnswer ids) (releasePrepared engines hook w).2 :=
        (releasePrepared_quiet engines hook w).mono fun _ ↦ Event.ofState.ofAnswer
      have hidle := releasePrepared_preparedState engines hook w
      dsimp only
      obtain ⟨hrest, hworld⟩ := ih ((releasePrepared engines hook w).2.log
        (.prepareSettled (releasePrepared engines hook w).1.hookId .failedSafe))
      refine ⟨.cons ⟨⟨htouched.hookId, htouched.spec, htouched.targetKey, htouched.matchedEngine⟩,
        htouched.installed, htouched.generation, ?_, fun _ _ ↦ hidle, fun _ ↦ .of_ne nofun,
        htouched.commitEffects⟩ hrest,
        World.Quiet.trans (hquiet.log (e := .prepareSettled _ .failedSafe) ?_) hworld⟩
      · rw [hmember.2]
        exact .inr rfl
      · refine ⟨?_, nofun⟩
        rw [htouched.hookId]
        exact hids hook List.mem_cons_self
    · obtain ⟨hrest, hworld⟩ := ih w
      exact ⟨.cons (.refl hook) hrest, hworld⟩

theorem failDomain_moves (domains : List Domain) (gateOk : Id → Bool) (hook : Hook)
    {st : PrepareState ε} (hids : ∀ h ∈ st.hooks, h.hookId ∈ ids) :
    PrepareState.Moves engines (Event.ofAnswer ids) st
    (failDomain engines domains gateOk hook st) := by
  rw [failDomain]
  split
  · exact .refl st
  · split
    · obtain ⟨hhooks, hworld⟩ := releaseDomainMembers_spec engines _ hids st.world
      exact ⟨hhooks, hworld⟩
    · exact .refl st

/-- Outside of every domain nothing is rolled back. -/
theorem failDomain_nil (gateOk : Id → Bool) (hook : Hook) (st : PrepareState ε) :
    failDomain engines [] gateOk hook st = st := by
  have hnone : domainOf [] hook = none := by
    rw [domainOf]
    cases hook.spec.domain <;> rfl
  rw [failDomain, hnone]

/-! ## One attempt -/

theorem withDiag_generation (out : HookResult) (engineId : Option String) (diag : PrepareDiag) :
    (out.withDiag engineId diag).imageGeneration = out.imageGeneration := by
  rw [HookResult.withDiag]
  split <;> rfl

theorem preparedResult_outcome (hook : Hook) (out : HookResult) (result : PrepareResult)
    (diag : PrepareDiag) :
    (preparedResult engines hook out result diag).outcome = preparedOutcome hook.spec result := by
  cases result <;> rfl

theorem withDiag_effects (out : HookResult) (engineId : Option String) (diag : PrepareDiag) :
    (out.withDiag engineId diag).observedPrepareEffects = out.observedPrepareEffects ∧
      (out.withDiag engineId diag).observedCommitEffects = out.observedCommitEffects := by
  rw [HookResult.withDiag]
  split <;> exact ⟨rfl, rfl⟩

theorem preparedResult_effects (hook : Hook) (out : HookResult) (result : PrepareResult)
    (diag : PrepareDiag) :
    (preparedResult engines hook out result diag).observedPrepareEffects = diag.observedEffects ∧
      (preparedResult engines hook out result diag).observedCommitEffects =
        out.observedCommitEffects := by
  cases result <;> exact withDiag_effects _ _ _

theorem preparedResult_generation (hook : Hook) (out : HookResult) (result : PrepareResult)
    (diag : PrepareDiag) :
    (preparedResult engines hook out result diag).imageGeneration = out.imageGeneration := by
  cases result <;> exact withDiag_generation _ _ _

theorem preparesTo_preparedOutcome (spec : HookSpec) (result : PrepareResult) :
    Outcome.analyzed.preparesTo (preparedOutcome spec result) := by
  cases result with
  | ok => exact .inr (.inl rfl)
  | failed => exact .inr (.inr (.inr (.inr (.inl rfl))))
  | notApplicable =>
    rw [preparedOutcome]
    split
    · exact .inr (.inr (.inl rfl))
    · exact .inr (.inr (.inr (.inl rfl)))

theorem preparedOutcome_eq_prepared {spec : HookSpec} {result : PrepareResult} :
    preparedOutcome spec result = .prepared ↔ result = .ok := by
  cases result with
  | ok => simp [preparedOutcome]
  | failed => simp [preparedOutcome]
  | notApplicable =>
    rw [preparedOutcome]
    split <;> simp

theorem preparedOutcome_ne_active (spec : HookSpec) (result : PrepareResult) :
    preparedOutcome spec result ≠ .active := by
  cases result with
  | ok => exact nofun
  | failed => exact nofun
  | notApplicable =>
    rw [preparedOutcome]
    split <;> exact nofun

/-- **Recording an attempt.**  The engine's answer may still be turned into a failure; what is left
is an outcome written into the hook, the counters, and the rollback of the hook's domain. -/
theorem recordPrepareAttempt_cases (domains : List Domain) (gateOk : Id → Bool) (index : Nat)
    (result : PrepareResult) {hook₀ hook : Hook} (diag : PrepareDiag) (out : HookResult)
    (st : PrepareState ε) (hid : hook₀.hookId ∈ ids) (htouched : hook₀.Touched hook)
    (hanalyzed : hook₀.result.outcome = .analyzed)
    (hout : out.imageGeneration = hook₀.result.imageGeneration ∧
      out.observedCommitEffects = hook₀.result.observedCommitEffects) :
    ∃ result' hook' w', hook₀.Prepares engines hook' ∧
      hook'.result.outcome = preparedOutcome hook₀.spec result' ∧
      st.world.Quiet (Event.ofAnswer ids) w' ∧
      recordPrepareAttempt engines domains gateOk index result hook diag out st =
        if result' = .failed then
          failDomain engines domains gateOk hook'
            { st with world := w', hooks := st.hooks.set index hook', failed := st.failed + 1 }
        else
          { st with
            world := w', hooks := st.hooks.set index hook'
            prepared := if result' = .ok then st.prepared + 1 else st.prepared } := by
  obtain ⟨htouched₁, hquiet₁⟩ := validatePrepareEffects_spec engines result hook diag
    st.world
  have hdeclared := @validatePrepareEffects_declared _ engines result hook diag st.world
  rw [recordPrepareAttempt]
  generalize validatePrepareEffects engines result hook diag st.world = validated
    at htouched₁ hquiet₁ hdeclared ⊢
  obtain ⟨result', hook₁, diag', w₁⟩ := validated
  dsimp only at htouched₁ hquiet₁ hdeclared ⊢
  obtain ⟨hook₂, w₂, hreleased, htouched₂, hquiet₂, hidle⟩ : ∃ hook₂ w₂,
      (if result' ≠ .ok then releasePrepared engines hook₁ w₁ else (hook₁, w₁)) = (hook₂, w₂) ∧
      hook₁.Touched hook₂ ∧ w₁.Quiet Event.ofState w₂ ∧
      (result' ≠ .ok → hook₂.preparedState = 0) := by
    by_cases hok : result' = .ok
    · exact ⟨hook₁, w₁, if_neg (not_not.mpr hok), .refl hook₁, .refl w₁, fun h ↦ absurd hok h⟩
    · exact ⟨_, _, if_pos hok, releasePrepared_touched engines hook₁ w₁,
        releasePrepared_quiet engines hook₁ w₁,
        fun _ ↦ releasePrepared_preparedState engines hook₁ w₁⟩
  rw [hreleased]
  have hall := htouched.trans (htouched₁.trans htouched₂)
  have houtcome := preparedResult_outcome engines hook₂ out result' diag'
  have heffects := preparedResult_effects engines hook₂ out result' diag'
  rw [hall.spec] at houtcome
  refine ⟨result', { hook₂ with result := preparedResult engines hook₂ out result' diag' },
    w₂.log (.prepareSettled hook₂.hookId (preparedResult engines hook₂ out result' diag').outcome),
    ⟨⟨hall.hookId, hall.spec, hall.targetKey, hall.matchedEngine⟩, hall.installed, ?_, ?_, ?_, ?_,
      ?_⟩, houtcome, ((hquiet₁.trans hquiet₂).mono fun _ ↦ Event.ofState.ofAnswer).log ?_, ?_⟩
  · exact (preparedResult_generation engines hook₂ out result' diag').trans hout.1
  · show hook₀.result.outcome.preparesTo (preparedResult engines hook₂ out result' diag').outcome
    rw [hanalyzed, houtcome]
    exact preparesTo_preparedOutcome _ _
  · intro _ hne
    refine hidle fun hok ↦ hne ?_
    show (preparedResult engines hook₂ out result' diag').outcome = .prepared
    rw [houtcome, preparedOutcome_eq_prepared]
    exact hok
  · intro _ hprepared
    have hok : result' = .ok := preparedOutcome_eq_prepared.mp (houtcome.symm.trans hprepared)
    show (preparedResult engines hook₂ out result' diag').observedPrepareEffects &&&
      ~~~(hook₂.caps engines).prepareEffects = 0
    rw [heffects.1, (htouched₁.trans htouched₂).caps]
    exact hdeclared (hok ▸ nofun)
  · exact heffects.2.trans hout.2
  · refine ⟨?_, ?_⟩
    · rw [hall.hookId]
      exact hid
    · rw [houtcome]
      exact preparedOutcome_ne_active _ _
  · dsimp only
    cases result' <;> rfl

theorem recordPrepareAttempt_moves (domains : List Domain) (gateOk : Id → Bool) (index : Nat)
    (result : PrepareResult) {hook₀ hook : Hook} (diag : PrepareDiag) (out : HookResult)
    (st : PrepareState ε) (hids : ∀ h ∈ st.hooks, h.hookId ∈ ids)
    (hget : st.hooks[index]? = some hook₀) (htouched : hook₀.Touched hook)
    (hanalyzed : hook₀.result.outcome = .analyzed)
    (hout : out.imageGeneration = hook₀.result.imageGeneration ∧
      out.observedCommitEffects = hook₀.result.observedCommitEffects) :
    PrepareState.Moves engines (Event.ofAnswer ids) st
      (recordPrepareAttempt engines domains gateOk index result hook diag out st) := by
  obtain ⟨result', hook', w', hprepares, -, hquiet, heq⟩ :=
    recordPrepareAttempt_cases engines domains gateOk index result diag out st
      (hids hook₀ (List.mem_of_getElem? hget)) htouched hanalyzed hout
  have hset : List.Forall₂ (Hook.Prepares engines) st.hooks (st.hooks.set index hook') :=
    Pointwise.set .refl hget hprepares
  rw [heq]
  split
  · have hmoves : PrepareState.Moves engines (Event.ofAnswer ids) st
        { st with world := w', hooks := st.hooks.set index hook', failed := st.failed + 1 } :=
      ⟨hset, hquiet⟩
    exact hmoves.trans (failDomain_moves engines domains gateOk hook' (hmoves.keepsIds hids))
  · exact ⟨hset, hquiet⟩

/-! ## Waves -/

theorem releaseAll_spec (hooks : List Hook) (w : World ε) :
    List.Forall₂ (fun h h' ↦ h.Touched h' ∧ h'.preparedState = 0) hooks
        (releaseAll engines hooks w).1 ∧
      w.Quiet Event.ofState (releaseAll engines hooks w).2 := by
  induction hooks generalizing w with
  | nil => exact ⟨.nil, .refl w⟩
  | cons hook rest ih =>
    obtain ⟨hrest, hworld⟩ := ih (releasePrepared engines hook w).2
    exact ⟨.cons
      ⟨releasePrepared_touched engines hook w, releasePrepared_preparedState engines hook w⟩ hrest,
      (releasePrepared_quiet engines hook w).trans hworld⟩

theorem logPrepareCalls_quiet (runtime : RuntimeId) {hooks : List Hook}
    (hids : ∀ h ∈ hooks, h.hookId ∈ ids) (w : World ε) :
    w.Quiet (Event.ofPrepare ids) (logPrepareCalls runtime hooks w) := by
  induction hooks generalizing w with
  | nil => exact .refl w
  | cons hook rest ih =>
    exact (World.quiet_log w (hids hook List.mem_cons_self)).trans
      (ih (fun h hh ↦ hids h (List.mem_cons_of_mem hook hh)) _)

theorem callPrepareGroup_quiet {Q : Event → Prop} (members : List Hook) (w : World ε) :
    w.Quiet Q (callPrepareGroup engines members w).2 := by
  rw [callPrepareGroup]
  split
  · exact .refl w
  · exact World.quiet_call w _

/-- The members of a wave, one after the other. -/
theorem recordPrepareGroup_moves (answer : PrepareGroupAnswer) (index : Nat)
    (outs : List HookResult) (offset : Nat) (st : PrepareState ε)
    (hids : ∀ h ∈ st.hooks, h.hookId ∈ ids)
    (hmembers : ∀ i out, outs[i]? = some out → ∃ hook, st.hooks[index + offset + i]? = some hook ∧
      hook.result.outcome = .analyzed ∧ out.imageGeneration = hook.result.imageGeneration ∧
      out.observedCommitEffects = hook.result.observedCommitEffects) :
    PrepareState.Moves engines (Event.ofAnswer ids) st
      (recordPrepareGroup engines answer index outs offset st) := by
  induction outs generalizing offset st with
  | nil => exact .refl st
  | cons out outs ih =>
    obtain ⟨hook, hget, hanalyzed, hout⟩ := hmembers 0 out rfl
    rw [Nat.add_zero] at hget
    rw [recordPrepareGroup, hget]
    dsimp only
    generalize hwritten : (if answer.accepted = true then answer.writes offset
      else { answer.writes offset with result := .failed, prepared := 0 }) = written
    -- the inspection of a member's continuation, where its preparation went through
    obtain ⟨result, hook', diag, w, hinspected, htouched, hquiet⟩ : ∃ result hook' diag w,
        (if written.result = .ok then
          inspectPreparedContinuation engines { hook with preparedState := written.prepared }
            written.diag (st.world.log (.obtained hook.hookId hook.matchedEngine
              (answer.writes offset).prepared))
        else (written.result, { hook with preparedState := written.prepared }, written.diag,
          st.world.log (.obtained hook.hookId hook.matchedEngine
            (answer.writes offset).prepared))) = (result, hook', diag, w) ∧
        hook.Touched hook' ∧ st.world.Quiet Event.ofState w := by
      have hstart : hook.Touched { hook with preparedState := written.prepared } :=
        ⟨⟨rfl, rfl, rfl, rfl⟩, rfl, rfl, rfl, rfl⟩
      split
      · obtain ⟨htouched, hquiet⟩ := inspectPreparedContinuation_spec engines
          { hook with preparedState := written.prepared } written.diag
          (st.world.log (.obtained hook.hookId hook.matchedEngine (answer.writes offset).prepared))
        exact ⟨_, _, _, _, rfl, hstart.trans htouched, (World.quiet_log _ trivial).trans hquiet⟩
      · exact ⟨_, _, _, _, rfl, hstart, World.quiet_log _ trivial⟩
    rw [hinspected]
    have hrecord := recordPrepareAttempt_moves engines [] (fun _ ↦ true)
      (index + offset) result diag out { st with world := w } hids hget htouched hanalyzed hout
    obtain ⟨_, hook₂, w₂, -, -, -, heq⟩ := recordPrepareAttempt_cases engines []
      (fun _ ↦ true) (index + offset) result diag out { st with world := w }
      (hids hook (List.mem_of_getElem? hget)) htouched hanalyzed hout
    have hhooks : (recordPrepareAttempt engines [] (fun _ ↦ true) (index + offset) result hook' diag
        out { st with world := w }).hooks = st.hooks.set (index + offset) hook₂ := by
      rw [heq]
      split
      · rw [failDomain_nil engines]
      · rfl
    have hstep : PrepareState.Moves engines (Event.ofAnswer ids) st (recordPrepareAttempt engines []
        (fun _ ↦ true) (index + offset) result hook' diag out { st with world := w }) :=
      ⟨hrecord.hooks, (hquiet.mono fun _ ↦ Event.ofState.ofAnswer).trans hrecord.world⟩
    refine hstep.trans (ih (offset + 1) _ (hstep.keepsIds hids) fun i out' hi ↦ ?_)
    obtain ⟨later, hlater, hanalyzed', hout'⟩ := hmembers (i + 1) out' hi
    refine ⟨later, ?_, hanalyzed', hout'⟩
    rw [hhooks, List.getElem?_set_ne (by omega), ← hlater]
    congr 1
    omega

/-- The members of a wave, the first of which was only looked at for what starts a wave. -/
theorem prepareGroupCount_spec {engines : EngineRef → Engine ε} {generation : Nat}
    {hooks : List Hook} {start : Nat}
    (h : 1 < prepareGroupCount engines generation hooks start) :
    ∃ first rest, (hooks.drop start).take (prepareGroupCount engines generation hooks start) =
        first :: rest ∧
      first.result.outcome = .analyzed ∧ first.spec.domain = none ∧
      ∀ hook ∈ rest, joinsPrepareWave generation first hook = true := by
  rw [prepareGroupCount] at h ⊢
  split at h
  · omega
  · rename_i first rest hdrop
    split at h
    · omega
    · rename_i hfirst
      push Not at hfirst
      dsimp only at h
      split at h
      · rename_i hcount
        rw [hdrop]
        dsimp only
        rw [if_neg (by simpa using hfirst), if_pos hcount]
        refine ⟨first, rest.takeWhile (joinsPrepareWave generation first), ?_, hfirst.1, ?_, ?_⟩
        · rw [Nat.add_comm, List.take_succ_cons]
          congr 1
          exact (List.prefix_iff_eq_take.mp (List.takeWhile_prefix _)).symm
        · simpa using hfirst.2.1
        · exact List.all_eq_true.mp List.all_takeWhile
      · omega

theorem joinsPrepareWave_analyzed {generation : Nat} {first hook : Hook}
    (h : joinsPrepareWave generation first hook = true) : hook.result.outcome = .analyzed := by
  simp only [joinsPrepareWave, Bool.and_eq_true, decide_eq_true_eq] at h
  exact h.1.1.1

theorem joinsPrepareWave_generation {generation : Nat} {first hook : Hook}
    (h : joinsPrepareWave generation first hook = true) :
    hook.result.imageGeneration = generation := by
  simp only [joinsPrepareWave, Bool.and_eq_true, decide_eq_true_eq] at h
  exact h.2

theorem prepareGroupCount_analyzed {engines : EngineRef → Engine ε} {generation : Nat}
    {hooks : List Hook} {start : Nat}
    (h : 1 < prepareGroupCount engines generation hooks start) :
    ∀ hook ∈ (hooks.drop start).take (prepareGroupCount engines generation hooks start),
      hook.result.outcome = .analyzed := by
  obtain ⟨first, rest, heq, hfirst, -, hrest⟩ := prepareGroupCount_spec h
  rw [heq]
  intro hook hhook
  rcases List.mem_cons.mp hhook with rfl | hhook
  · exact hfirst
  · exact joinsPrepareWave_analyzed (hrest hook hhook)

theorem prepareGroup_moves (runtime : RuntimeId) (count : Nat) {st : PrepareState ε}
    (hids : ∀ h ∈ st.hooks, h.hookId ∈ ids)
    (hmembers : ∀ hook ∈ (st.hooks.drop st.index).take count, hook.result.outcome = .analyzed) :
    PrepareState.Moves engines (Event.ofPrepare ids) st
    (prepareGroup engines runtime count st).state := by
  rw [prepareGroup]
  have halloc : st.world.Quiet (Event.ofPrepare ids) st.world.alloc.2 := World.quiet_alloc st.world
  generalize st.world.alloc = allocated at halloc ⊢
  obtain ⟨ok, w⟩ := allocated
  cases ok with
  | false => exact ⟨Pointwise.refl .refl _, halloc⟩
  | true =>
    dsimp only [Flow.state_next] at halloc ⊢
    obtain ⟨hreleased, hquiet⟩ := releaseAll_spec engines
      ((st.hooks.drop st.index).take count) w
    generalize releaseAll engines ((st.hooks.drop st.index).take count) w = r at hreleased hquiet ⊢
    obtain ⟨released, w₁⟩ := r
    dsimp only at hreleased hquiet ⊢
    have hreleasedIds : ∀ h ∈ released, h.hookId ∈ ids := by
      intro h hh
      obtain ⟨h₀, hh₀, htouched, -⟩ := Pointwise.mem_right hreleased hh
      rw [htouched.hookId]
      exact hids h₀ (List.mem_of_mem_drop (List.mem_of_mem_take hh₀))
    have hcall := (logPrepareCalls_quiet runtime hreleasedIds w₁).trans
      (callPrepareGroup_quiet engines released _)
    generalize callPrepareGroup engines released (logPrepareCalls runtime released w₁) = called
      at hcall ⊢
    obtain ⟨answer, w₂⟩ := called
    dsimp only at hcall ⊢
    have hprepares : List.Forall₂ (Hook.Prepares engines) st.hooks
        (st.hooks.take st.index ++ released ++ st.hooks.drop (st.index + count)) := by
      have hmiddle : List.Forall₂ (Hook.Prepares engines)
          ((st.hooks.drop st.index).take count) released :=
        ((List.forall₂_and_left _ _).mpr ⟨hmembers, hreleased⟩).imp fun h h' ⟨hanalyzed, hh⟩ ↦
          ⟨hh.1.toSame, hh.1.installed, hh.1.generation, by rw [hh.1.outcome]; exact .refl _,
            fun _ _ ↦ hh.2, fun _ ↦ .of_ne (by rw [hh.1.outcome, hanalyzed]; exact nofun),
            hh.1.commitEffects⟩
      have hsplit : st.hooks = st.hooks.take st.index ++ (st.hooks.drop st.index).take count ++
          st.hooks.drop (st.index + count) := by
        rw [List.append_assoc, ← List.drop_drop, List.take_append_drop, List.take_append_drop]
      have hrel : List.Forall₂ (Hook.Prepares engines) (st.hooks.take st.index ++
          (st.hooks.drop st.index).take count ++ st.hooks.drop (st.index + count))
          (st.hooks.take st.index ++ released ++ st.hooks.drop (st.index + count)) :=
        List.rel_append (List.rel_append (Pointwise.refl .refl _) hmiddle)
          (Pointwise.refl .refl _)
      rwa [← hsplit] at hrel
    have hrecord := recordPrepareGroup_moves engines answer st.index
      (((st.hooks.drop st.index).take count).map Hook.result) 0
      { st with
        world := w₂, attempted := st.attempted + count
        hooks := st.hooks.take st.index ++ released ++ st.hooks.drop (st.index + count) }
      (prepares_keepsIds hprepares hids) ?_
    · exact ⟨Pointwise.trans (fun _ _ _ ↦ Hook.Prepares.trans) hprepares hrecord.hooks,
        halloc.trans (((hquiet.mono fun _ ↦ Event.ofState.ofPrepare).trans hcall).trans
          (hrecord.world.mono fun _ ↦ Event.ofAnswer.ofPrepare))⟩
    · intro i out hi
      rw [List.getElem?_map] at hi
      obtain ⟨member, hmember, rfl⟩ := Option.map_eq_some_iff.mp hi
      obtain ⟨member', hmember', htouched, -⟩ := Pointwise.getElem?_left hreleased hmember
      have hanalyzed := hmembers member (List.mem_of_getElem? hmember)
      refine ⟨member', ?_, htouched.outcome.trans hanalyzed, htouched.generation.symm,
        htouched.commitEffects.symm⟩
      have hlt : st.index < st.hooks.length := by
        by_contra hge
        rw [List.drop_eq_nil_of_le (by omega)] at hmember
        simp at hmember
      have htake : (st.hooks.take st.index).length = st.index := by
        rw [List.length_take]
        omega
      have hi' := (List.getElem?_eq_some_iff.mp hmember').1
      dsimp only
      rw [List.append_assoc, List.getElem?_append_right (by omega), htake,
        List.getElem?_append_left (by omega), ← hmember']
      congr 1
      omega

/-! ## The loop -/

/-- A hook that is refused before its engine is asked. -/
theorem Hook.Prepares.refused {engines : EngineRef → Engine ε} {hook : Hook}
    (hanalyzed : hook.result.outcome = .analyzed)
    {out : HookResult} (hgeneration : out.imageGeneration = hook.result.imageGeneration)
    (heffects : out.observedCommitEffects = hook.result.observedCommitEffects)
    (houtcome : out.outcome = .stalePlan ∨ out.outcome = .failedSafe) :
    hook.Prepares engines { hook with result := out } := by
  refine ⟨⟨rfl, rfl, rfl, rfl⟩, rfl, hgeneration, ?_, fun hidle _ ↦ hidle ?_, fun _ ↦ .of_ne ?_,
    heffects⟩
  · rw [hanalyzed]
    rcases houtcome with h | h
    · exact .inr (.inr (.inr (.inr (.inr h))))
    · exact .inr (.inr (.inr (.inr (.inl h))))
  · rw [hanalyzed]
    exact nofun
  · dsimp only
    rcases houtcome with h | h <;> rw [h] <;> exact nofun

theorem prepareStale_moves (domains : List Domain) (gateOk : Id → Bool) {hook : Hook}
    {st : PrepareState ε} (hget : st.hooks[st.index]? = some hook)
    (hids : ∀ h ∈ st.hooks, h.hookId ∈ ids) (hanalyzed : hook.result.outcome = .analyzed) :
    PrepareState.Moves engines (Event.ofAnswer ids) st
    (prepareStale engines domains gateOk hook st) := by
  rw [prepareStale]
  have hmoves : PrepareState.Moves engines (Event.ofAnswer ids) st
      { st with
        world := st.world.log (.prepareSettled hook.hookId .stalePlan)
        hooks := st.hooks.set st.index { hook with
          result := { hook.result with
            outcome := .stalePlan, retryable := true, currentlyValid := false } }
        failed := st.failed + 1 } :=
    ⟨Pointwise.set .refl hget (.refused hanalyzed rfl rfl (.inl rfl)),
      World.quiet_log st.world ⟨hids hook (List.mem_of_getElem? hget), nofun⟩⟩
  exact hmoves.trans (failDomain_moves engines domains gateOk _ (hmoves.keepsIds hids))

theorem prepareBlocked_moves {hook : Hook} (st : PrepareState ε)
    (hids : ∀ h ∈ st.hooks, h.hookId ∈ ids) (hget : st.hooks[st.index]? = some hook)
    (hanalyzed : hook.result.outcome = .analyzed) :
    PrepareState.Moves engines (Event.ofAnswer ids) st (prepareBlocked hook st) :=
  ⟨Pointwise.set .refl hget (.refused hanalyzed rfl rfl (.inr rfl)),
    World.quiet_log st.world ⟨hids hook (List.mem_of_getElem? hget), nofun⟩⟩

theorem prepareSingle_moves (runtime : RuntimeId) (domains : List Domain) (gateOk : Id → Bool)
    {hook : Hook} (st : PrepareState ε) (hids : ∀ h ∈ st.hooks, h.hookId ∈ ids)
    (hget : st.hooks[st.index]? = some hook) (hanalyzed : hook.result.outcome = .analyzed) :
    PrepareState.Moves engines (Event.ofPrepare ids) st
      (prepareSingle engines runtime domains gateOk hook st) := by
  have htouched₁ := releasePrepared_touched engines hook st.world
  have hquiet₁ := releasePrepared_quiet engines hook st.world
  rw [prepareSingle]
  generalize releasePrepared engines hook st.world = released at htouched₁ hquiet₁ ⊢
  obtain ⟨hook₁, w₁⟩ := released
  have htouched₂ := dispatchPrepare_touched engines .single runtime hook₁ w₁
  dsimp only at htouched₁ hquiet₁ ⊢
  have hid : hook₁.hookId ∈ ids := by
    rw [htouched₁.hookId]
    exact hids hook (List.mem_of_getElem? hget)
  have hquiet₂ := dispatchPrepare_quiet engines .single runtime hook₁ hid w₁
  generalize dispatchPrepare engines .single runtime hook₁ w₁ = dispatched at htouched₂ hquiet₂ ⊢
  obtain ⟨result, hook₂, diag, w₂⟩ := dispatched
  have hrecord := recordPrepareAttempt_moves engines domains gateOk st.index result
    diag hook.result { st with world := w₂ } hids hget (htouched₁.trans htouched₂) hanalyzed
    ⟨rfl, rfl⟩
  exact ⟨hrecord.hooks, ((hquiet₁.mono fun _ ↦ Event.ofState.ofPrepare).trans hquiet₂).trans
    (hrecord.world.mono fun _ ↦ Event.ofAnswer.ofPrepare)⟩

/-- **One pass of the loop in `hk_plan_prepare`.** -/
theorem prepareIter_moves (runtime : RuntimeId) (domains : List Domain) (gateOk : Id → Bool)
    {st : PrepareState ε} (hids : ∀ h ∈ st.hooks, h.hookId ∈ ids) :
    PrepareState.Moves engines (Event.ofPrepare ids) st
    (prepareIter engines runtime domains gateOk st).state := by
  rw [prepareIter]
  split
  · exact ⟨Pointwise.refl .refl _, .refl _⟩
  · rename_i hook hget
    split
    · exact ⟨Pointwise.refl .refl _, .refl _⟩
    · rename_i hanalyzed
      rw [not_not] at hanalyzed
      dsimp only
      split
      · rename_i hcount
        exact prepareGroup_moves engines runtime _ hids (prepareGroupCount_analyzed hcount)
      · split
        · have h := (prepareStale_moves engines domains gateOk hget hids hanalyzed).mono
            fun _ ↦ Event.ofAnswer.ofPrepare
          exact ⟨h.hooks, h.world⟩
        · split
          · have h := (prepareBlocked_moves engines { st with attempted := st.attempted + 1 }
              hids hget hanalyzed).mono fun _ ↦ Event.ofAnswer.ofPrepare
            exact ⟨h.hooks, h.world⟩
          · have h := prepareSingle_moves engines runtime domains gateOk
              { st with attempted := st.attempted + 1 } hids hget hanalyzed
            exact ⟨h.hooks, h.world⟩

/-! ## The call -/

theorem allocPrepare_quiet {Q : Event → Prop} (plan : Plan) (w : World ε) :
    w.Quiet Q (allocPrepare plan w).2 := by
  have hfirst : w.Quiet Q (if plan.hooks.length > 0 then w.alloc else (true, w)).2 := by
    split
    · exact World.quiet_alloc w
    · exact .refl w
  rw [allocPrepare]
  generalize (if plan.hooks.length > 0 then w.alloc else (true, w)) = first at hfirst ⊢
  obtain ⟨ok, w₁⟩ := first
  cases ok with
  | false => exact hfirst
  | true =>
    dsimp only at hfirst ⊢
    split
    · have hsecond : w.Quiet Q w₁.alloc.2 := hfirst.trans (World.quiet_alloc w₁)
      generalize w₁.alloc = second at hsecond ⊢
      obtain ⟨ok', w₂⟩ := second
      cases ok' with
      | false => exact hsecond
      | true => exact hsecond.trans (World.quiet_alloc w₂)
    · exact hfirst

theorem createReport_quiet {Q : Event → Prop} (count : Nat) (w : World ε) :
    w.Quiet Q (createReport count w).2 := by
  have hfirst : w.Quiet Q w.alloc.2 := World.quiet_alloc w
  rw [createReport]
  generalize w.alloc = first at hfirst ⊢
  obtain ⟨ok, w₁⟩ := first
  cases ok with
  | false => exact hfirst
  | true =>
    dsimp only at hfirst ⊢
    have hsecond : w.Quiet Q w₁.freshId.2.alloc.2 :=
      (hfirst.trans (World.quiet_freshId w₁)).trans (World.quiet_alloc _)
    generalize w₁.freshId.2.alloc = second at hsecond ⊢
    obtain ⟨ok', w₂⟩ := second
    cases ok' with
    | false => exact hsecond
    | true =>
      dsimp only at hsecond ⊢
      split
      · exact hsecond.trans (World.quiet_alloc w₂)
      · exact hsecond

/-! ## The loop comes to its end -/

theorem failDomain_index (domains : List Domain) (gateOk : Id → Bool) (hook : Hook)
    (st : PrepareState ε) : (failDomain engines domains gateOk hook st).index = st.index := by
  rw [failDomain]
  split
  · rfl
  · split <;> rfl

theorem recordPrepareAttempt_index (domains : List Domain) (gateOk : Id → Bool) (index : Nat)
    (result : PrepareResult) (hook : Hook) (diag : PrepareDiag) (out : HookResult)
    (st : PrepareState ε) :
    (recordPrepareAttempt engines domains gateOk index result hook diag out st).index =
      st.index := by
  rw [recordPrepareAttempt]
  dsimp only
  split
  · rw [failDomain_index]
  · rfl

theorem recordPrepareGroup_index (answer : PrepareGroupAnswer) (index : Nat)
    (outs : List HookResult) (offset : Nat) (st : PrepareState ε) :
    (recordPrepareGroup engines answer index outs offset st).index = st.index := by
  induction outs generalizing offset st with
  | nil => rfl
  | cons out outs ih =>
    rw [recordPrepareGroup]
    split
    · rfl
    · dsimp only
      rw [ih, recordPrepareAttempt_index]

/-- A pass that goes on goes forward. -/
theorem prepareIter_index (runtime : RuntimeId) (domains : List Domain) (gateOk : Id → Bool)
    {st st' : PrepareState ε} (h : prepareIter engines runtime domains gateOk st = .next st') :
    st.index < st'.index := by
  rw [prepareIter] at h
  split at h
  · cases h
    exact Nat.lt_succ_self _
  split at h
  · cases h
    exact Nat.lt_succ_self _
  dsimp only at h
  split at h
  · rename_i hcount
    rw [prepareGroup] at h
    split at h
    · cases h
    · cases h
      dsimp only
      rw [recordPrepareGroup_index]
      dsimp only
      omega
  split at h
  · cases h
    refine Nat.lt_succ_of_le (Nat.le_of_eq (Eq.symm ?_))
    rw [prepareStale]
    dsimp only
    rw [failDomain_index]
  · cases h
    refine Nat.lt_succ_of_le (Nat.le_of_eq (Eq.symm ?_))
    split
    · rfl
    · rw [prepareSingle]
      dsimp only
      rw [recordPrepareAttempt_index]

/-- A preparation that is not given up reaches every hook. -/
theorem prepareLoop_finished {plan : Plan} {w : World ε} {st : PrepareState ε}
    (h : prepareLoop engines plan w = .next st) : plan.hooks.length ≤ st.index := by
  have hmore := run_finished (fun st : PrepareState ε ↦ plan.hooks.length - st.index)
    (fun st st' hmore hnext ↦ by
      have := prepareIter_index engines plan.runtime plan.domains (domainGateOk plan) hnext
      have := of_decide_eq_true hmore
      omega)
    (fun st hmore ↦ Nat.sub_pos_of_lt (of_decide_eq_true hmore)) (Nat.sub_le _ _) h
  exact Nat.le_of_not_lt (of_decide_eq_false hmore)

theorem prepareLoop_moves (plan : Plan) (w : World ε) :
    List.Forall₂ (Hook.Prepares engines) plan.hooks (prepareLoop engines plan w).state.hooks ∧
      w.Quiet (Event.ofPrepare (plan.hooks.map Hook.hookId))
        (prepareLoop engines plan w).state.world := by
  have hmoves : PrepareState.Moves engines (Event.ofPrepare (plan.hooks.map Hook.hookId))
      ⟨w, plan.hooks, 0, 0, 0, 0, fun _ ↦ false⟩ (prepareLoop engines plan w).state :=
    run_rel (fun st ↦ ∀ h ∈ st.hooks, h.hookId ∈ plan.hooks.map Hook.hookId) _ .refl
      (fun _ _ _ ↦ .trans)
      (fun st _ hids ↦
        have hmoves := prepareIter_moves engines plan.runtime plan.domains (domainGateOk plan) hids
        ⟨hmoves.keepsIds hids, hmoves⟩)
      plan.hooks.length fun h hh ↦ List.mem_map_of_mem hh
  exact ⟨hmoves.hooks, hmoves.world⟩

/-- What a call of `hk_plan_prepare` leaves of the plan. -/
theorem preparePlan_spec (plan : Plan) (w : World ε) :
    w.Quiet (Event.ofPrepare (plan.hooks.map Hook.hookId)) (preparePlan engines plan w).2.2 ∧
      ∃ hooks state, (preparePlan engines plan w).2.1 =
      { plan with hooks := hooks, state := state } ∧
        List.Forall₂ (Hook.Prepares engines) plan.hooks hooks ∧
        (state = plan.state ∨
          plan.state = .analyzed ∧ (state = .prepared ∨ state = .failed ∨ state = .partly)) := by
  have hnothing : List.Forall₂ (Hook.Prepares engines) plan.hooks plan.hooks :=
    Pointwise.refl .refl _
  rw [preparePlan]
  split
  · exact ⟨.refl w, plan.hooks, plan.state, rfl, hnothing, .inl rfl⟩
  · rename_i hstate
    rw [not_not] at hstate
    have halloc := allocPrepare_quiet (Q := Event.ofPrepare (plan.hooks.map Hook.hookId)) plan w
    generalize allocPrepare plan w = allocated at halloc ⊢
    obtain ⟨ok, w₁⟩ := allocated
    cases ok with
    | false => exact ⟨halloc, plan.hooks, plan.state, rfl, hnothing, .inl rfl⟩
    | true =>
      dsimp only at halloc ⊢
      obtain ⟨hhooks, hworld⟩ := prepareLoop_moves engines plan w₁
      cases hloop : prepareLoop engines plan w₁ with
      | stop st =>
        rw [hloop] at hhooks hworld
        exact ⟨halloc.trans hworld, st.hooks, plan.state, rfl, hhooks, .inl rfl⟩
      | next st =>
        rw [hloop] at hhooks hworld
        dsimp only
        have hreport := createReport_quiet (Q := Event.ofPrepare (plan.hooks.map Hook.hookId))
          plan.hooks.length st.world
        generalize createReport plan.hooks.length st.world = report at hreport ⊢
        obtain ⟨ok', w₂⟩ := report
        have hquiet : w.Quiet (Event.ofPrepare (plan.hooks.map Hook.hookId)) w₂ :=
          halloc.trans (hworld.trans hreport)
        cases ok' with
        | false => exact ⟨hquiet, st.hooks, plan.state, rfl, hhooks, .inl rfl⟩
        | true =>
          refine ⟨hquiet, st.hooks, st.planState, rfl, hhooks, .inr ⟨hstate, ?_⟩⟩
          rw [PrepareState.planState]
          split
          · exact .inl rfl
          · split
            · exact .inr (.inl rfl)
            · exact .inr (.inr rfl)

end HookKit
