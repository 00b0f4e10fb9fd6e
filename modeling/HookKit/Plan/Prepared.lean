import HookKit.Lib.Custody
import HookKit.Plan.PrepareCounts

/-!
# Prepared values

A preparation callback hands a value to the core, and the core has to hand it back to
`release_prepared`.  In between the hook holds it.

* `Token` — a value that an engine has handed to a hook.
* `Carried` — a step between two lists of hooks that loses no token if and only if some condition
  holds.
* `PrepareState.RefusesClean` — a pass of a preparation is not refused after its engine has stored
  something.
* `preparePlan_carried` — a preparation loses tokens in the other passes only.
* `commitPlan_carried`, `drainPending_carried`, `releaseHooks_carried` — the other calls lose none.
-/

set_option autoImplicit false

namespace HookKit

open Loop Trace

/-! ## Tokens -/

/-- A value that an engine has handed to a hook. -/
structure Token where
  hook : Id
  engine : Option EngineRef
  value : Ptr
deriving DecidableEq

/-- A preparation callback hands a value over; `NULL` is none. -/
def Event.gives : Event → Option Token
  | .obtained hook engine value => if value = 0 then none else some ⟨hook, engine, value⟩
  | _ => none

/-- A value is handed back. -/
def Event.takes : Event → Option Token
  | .released hook engine value => some ⟨hook, engine, value⟩
  | _ => none

/-- What a hook holds. -/
def Hook.token (hook : Hook) : Option Token :=
  if hook.preparedState = 0 then none
  else some ⟨hook.hookId, hook.matchedEngine, hook.preparedState⟩

/-- What the hooks hold. -/
def tokens (hooks : List Hook) : List Token := hooks.filterMap Hook.token

theorem Event.gives_released (hook : Id) (engine : Option EngineRef) (value : Ptr) :
    Event.gives (.released hook engine value) = none := rfl

theorem Event.takes_released (hook : Id) (engine : Option EngineRef) (value : Ptr) :
    Event.takes (.released hook engine value) = some ⟨hook, engine, value⟩ := rfl

theorem Event.gives_obtained (hook : Id) (engine : Option EngineRef) {value : Ptr} (h : value ≠ 0) :
    Event.gives (.obtained hook engine value) = some ⟨hook, engine, value⟩ := if_neg h

theorem Event.takes_obtained (hook : Id) (engine : Option EngineRef) (value : Ptr) :
    Event.takes (.obtained hook engine value) = none := rfl

/-- The event is not about tokens. -/
def Event.Tokenless (e : Event) : Prop := e.gives = none ∧ e.takes = none

theorem Hook.token_eq_none {hook : Hook} : hook.token = none ↔ hook.preparedState = 0 := by
  rw [Hook.token]
  split
  · rename_i h
    exact iff_of_true rfl h
  · rename_i h
    exact iff_of_false (Option.some_ne_none _) h

theorem tokens_append (hooks hooks' : List Hook) :
    tokens (hooks ++ hooks') = tokens hooks ++ tokens hooks' := List.filterMap_append

theorem tokens_singleton (hook : Hook) : tokens [hook] = hook.token.toList := by
  rw [tokens, List.filterMap_cons, List.filterMap_nil]
  cases hook.token <;> rfl

theorem tokens_cons (hook : Hook) (hooks : List Hook) :
    tokens (hook :: hooks) = hook.token.toList ++ tokens hooks := by
  rw [← tokens_singleton]
  exact tokens_append [hook] hooks

theorem tokens_eq_nil {hooks : List Hook} (h : ∀ hook ∈ hooks, hook.preparedState = 0) :
    tokens hooks = [] := List.filterMap_eq_nil_iff.mpr fun hook hmem ↦
  Hook.token_eq_none.mpr (h hook hmem)

/-- The hooks hold the same. -/
theorem tokens_congr {hooks hooks' : List Hook}
    (h : List.Forall₂ (fun h h' ↦ h'.token = h.token) hooks hooks') :
    tokens hooks' = tokens hooks := by
  induction h with
  | nil => rfl
  | cons hhead _ ih => rw [tokens_cons, tokens_cons, hhead, ih]

variable {ε : Type}

/-- **A step of the hooks** that loses no token if and only if `P` holds. -/
def Carried (P : Prop) (hooks hooks' : List Hook) (w w' : World ε) : Prop :=
  Custody.Carries Event.gives Event.takes P (tokens hooks) (tokens hooks') w.history w'.history

namespace Carried

variable {P Q : Prop} {hooks hooks₁ hooks' rest rest' : List Hook} {hook hook' : Hook}
  {w w₁ w' : World ε}

theorem refl (hooks : List Hook) (w : World ε) : Carried True hooks hooks w w :=
  Custody.Carries.refl _ _

theorem trans (h : Carried P hooks hooks₁ w w₁) (h' : Carried Q hooks₁ hooks' w₁ w') :
    Carried (P ∧ Q) hooks hooks' w w' := Custody.Carries.trans h h'

theorem congr (h : Carried P hooks hooks' w w') (hPQ : P ↔ Q) : Carried Q hooks hooks' w w' :=
  Custody.Carries.congr h hPQ

/-- A step that loses nothing behind another step. -/
theorem andThen (h : Carried P hooks hooks₁ w w₁) (h' : Carried True hooks₁ hooks' w₁ w') :
    Carried P hooks hooks' w w' := (h.trans h').congr (iff_of_eq (and_true P))

/-- A step that loses nothing in front of another step. -/
theorem before (h : Carried True hooks hooks₁ w w₁) (h' : Carried P hooks₁ hooks' w₁ w') :
    Carried P hooks hooks' w w' := (h.trans h').congr (iff_of_eq (true_and P))

/-- Nothing happens to any token. -/
theorem silent (h : w.Adds Event.Tokenless w') (htokens : tokens hooks' = tokens hooks) :
    Carried True hooks hooks' w w' := by
  rw [Carried, htokens]
  exact Custody.Carries.silent h.history _

/-- The hooks behind do not take part. -/
theorem append (h : Carried P hooks hooks' w w₁) (h' : Carried Q rest rest' w₁ w') :
    Carried (P ∧ Q) (hooks ++ rest) (hooks' ++ rest') w w' := by
  have hfirst := Custody.Carries.frame h [] (tokens rest)
  have hrest := Custody.Carries.frame h' (tokens hooks') []
  rw [List.nil_append, List.nil_append] at hfirst
  rw [List.append_nil, List.append_nil] at hrest
  rw [Carried, tokens_append, tokens_append]
  exact hfirst.trans hrest

theorem cons (h : Carried P [hook] [hook'] w w₁) (h' : Carried Q rest rest' w₁ w') :
    Carried (P ∧ Q) (hook :: rest) (hook' :: rest') w w' := h.append h'

/-- One of the hooks. -/
theorem set {index : Nat} (h : Carried P [hook] [hook'] w w') (hget : hooks[index]? = some hook) :
    Carried P hooks (hooks.set index hook') w w' := by
  obtain ⟨hlt, rfl⟩ := List.getElem?_eq_some_iff.mp hget
  have hsplit := List.take_append_drop index hooks
  rw [List.drop_eq_getElem_cons hlt] at hsplit
  rw [List.set_eq_take_append_cons_drop, if_pos hlt]
  nth_rewrite 1 [← hsplit]
  exact ((refl (hooks.take index) w).append (h.cons (refl (hooks.drop (index + 1)) w'))).congr
    (by rw [true_and, and_true])

end Carried

theorem World.Adds.nothing {w w' : World ε} (h : w.Adds (fun _ ↦ False) w') :
    w.Adds Event.Tokenless w' := h.mono fun _ ↦ False.elim

/-! ## One hook -/

section OneHook

variable (engines : EngineRef → Engine ε)

/-- Who holds a token hands it back. -/
theorem releasePrepared_carried (hook : Hook) (w : World ε) :
    Carried True [hook] [(releasePrepared engines hook w).1] w
      (releasePrepared engines hook w).2 := by
  by_cases hidle : hook.preparedState = 0
  · rw [releasePrepared_idle engines hidle]
    exact .refl _ _
  · have hheld : tokens [hook] = [⟨hook.hookId, hook.matchedEngine, hook.preparedState⟩] := by
      rw [tokens_singleton, Hook.token, if_neg hidle]
      rfl
    have hnone : tokens [(releasePrepared engines hook w).1] = [] :=
      tokens_eq_nil (by simp)
    rw [Carried, hheld, hnone, releasePrepared, if_neg hidle]
    dsimp only
    have htake : Custody.Carries Event.gives Event.takes True
        [⟨hook.hookId, hook.matchedEngine, hook.preparedState⟩] [] w.history
        (.released hook.hookId hook.matchedEngine hook.preparedState :: w.history) :=
      .take (Event.gives_released ..) (Event.takes_released ..) []
    split <;> exact htake

/-- The hook is gone with its token. -/
theorem freeHook_carried (hook : Hook) (w : World ε) :
    Carried True [hook] [] w (freeHook engines hook w) := by
  have hreleased := releasePrepared_carried engines hook w
  have hnone : tokens [(releasePrepared engines hook w).1] = [] := tokens_eq_nil (by simp)
  rw [Carried, hnone] at hreleased
  exact hreleased

theorem inspectPreparedContinuation_carried (hook : Hook) (diag : PrepareDiag) (w : World ε) :
    Carried True [hook] [(inspectPreparedContinuation engines hook diag w).2.1] w
      (inspectPreparedContinuation engines hook diag w).2.2.2 := by
  rw [inspectPreparedContinuation]
  split
  · exact .refl _ _
  · rename_i inspect _
    have hcall : Carried True [hook] [hook] w (w.call (inspect hook.spec hook.preparedState)).2 :=
      .silent (World.quiet_call (Q := fun _ ↦ False) w _).toAdds.nothing rfl
    dsimp only
    split
    · exact hcall
    · split
      · exact hcall.andThen (releasePrepared_carried engines hook _)
      · exact hcall
    · exact hcall.andThen (releasePrepared_carried engines hook _)

/-- The engine hands a value to a hook that holds none. -/
theorem obtained_carried {hook : Hook} (hidle : hook.preparedState = 0) (value : Ptr)
    (w : World ε) :
    Carried True [hook] [{ hook with preparedState := value }] w
      (w.log (.obtained hook.hookId hook.matchedEngine value)) := by
  have hnone : tokens [hook] = [] := tokens_eq_nil (by simpa using hidle)
  by_cases hvalue : value = 0
  · refine .silent (World.quiet_log w ⟨if_pos hvalue, rfl⟩).toAdds ?_
    rw [hnone]
    exact tokens_eq_nil (by simpa using hvalue)
  · rw [Carried, hnone, tokens_singleton, Hook.token]
    dsimp only
    rw [if_neg hvalue]
    exact .give (Event.gives_obtained _ _ hvalue) (Event.takes_obtained ..) []

/-- A hook that holds nothing is handed to its engine. -/
theorem dispatchPrepare_carried (path : Path) (runtime : RuntimeId) {hook : Hook}
    (hidle : hook.preparedState = 0) (w : World ε) :
    Carried True [hook] [(dispatchPrepare engines path runtime hook w).2.1] w
      (dispatchPrepare engines path runtime hook w).2.2.2 := by
  rw [dispatchPrepare]
  split
  · exact .refl _ _
  · rename_i answer env _
    have hcall : Carried True [hook] [hook] w ((w.log (.prepareCall path hook.hookId
        hook.result.imageGeneration (w.env.generation runtime))).setEnv env) :=
      .silent ((World.quiet_log w ⟨rfl, rfl⟩).setEnv env).toAdds rfl
    have hobtained := hcall.andThen (obtained_carried hidle answer.prepared _)
    dsimp only
    split
    · exact hobtained.andThen (inspectPreparedContinuation_carried engines _ answer.diag _)
    · exact hobtained

theorem validatePrepareEffects_carried (result : PrepareResult) (hook : Hook) (diag : PrepareDiag)
    (w : World ε) :
    Carried True [hook] [(validatePrepareEffects engines result hook diag w).2.1] w
      (validatePrepareEffects engines result hook diag w).2.2.2 := by
  rw [validatePrepareEffects]
  split
  · exact .refl _ _
  · dsimp only
    split
    · exact releasePrepared_carried engines hook w
    · exact .refl _ _

/-- Only a preparation that goes through hands anything over. -/
theorem prepareAnswer_waiting {engine : Engine ε} {hook : Hook} {env env' : Env ε}
    {answer : PrepareAnswer} (h : engine.prepareAnswer hook env = some (answer, env'))
    (hresult : answer.result = .notApplicable) : answer.prepared = 0 := by
  rw [Engine.prepareAnswer] at h
  split at h
  · cases h
    rw [if_neg (by rw [show _ = PrepareResult.notApplicable from hresult]; simp)]
  · split at h
    · split at h <;> cases h <;> cases hresult
    · split at h
      · cases h
        dsimp only at hresult
        split at hresult <;> cases hresult
      · cases h

end OneHook

/-! ## A preparation -/

section Preparation

variable (engines : EngineRef → Engine ε)

theorem releaseDomainMembers_carried (domain : Id) (hooks : List Hook) (w : World ε) :
    Carried True hooks (releaseDomainMembers engines domain hooks w).1 w
      (releaseDomainMembers engines domain hooks w).2.2 := by
  induction hooks generalizing w with
  | nil => exact .refl _ _
  | cons hook rest ih =>
    rw [releaseDomainMembers]
    split
    · have hreleased := releasePrepared_carried engines hook w
      dsimp only
      have hsettled := hreleased.andThen (.silent (World.quiet_log _
        (e := .prepareSettled (releasePrepared engines hook w).1.hookId .failedSafe)
        ⟨rfl, rfl⟩).toAdds rfl)
      exact (hsettled.cons (ih _)).congr (iff_of_eq (true_and True))
    · exact ((Carried.refl [hook] w).cons (ih w)).congr (iff_of_eq (true_and True))

theorem failDomain_carried (domains : List Domain) (gateOk : Id → Bool) (hook : Hook)
    (st : PrepareState ε) :
    Carried True st.hooks (failDomain engines domains gateOk hook st).hooks st.world
      (failDomain engines domains gateOk hook st).world := by
  rw [failDomain]
  split
  · exact .refl _ _
  · split
    · exact releaseDomainMembers_carried engines _ _ _
    · exact .refl _ _

/-- An attempt on the hook at an index; `hook` is what the engine has made of it. -/
theorem recordPrepareAttempt_carried {P : Prop} {hook₀ hook : Hook} {w₀ : World ε} {index : Nat}
    (domains : List Domain) (gateOk : Id → Bool) (result : PrepareResult) (diag : PrepareDiag)
    (out : HookResult) (st : PrepareState ε)
    (h : Carried P [hook₀] [hook] w₀ st.world) (hget : st.hooks[index]? = some hook₀) :
    Carried P st.hooks
      (recordPrepareAttempt engines domains gateOk index result hook diag out st).hooks w₀
      (recordPrepareAttempt engines domains gateOk index result hook diag out st).world := by
  have hvalidated := h.andThen (validatePrepareEffects_carried engines result hook diag st.world)
  rw [recordPrepareAttempt]
  generalize validatePrepareEffects engines result hook diag st.world = validated at hvalidated ⊢
  obtain ⟨result', hook₁, diag', w₁⟩ := validated
  dsimp only at hvalidated ⊢
  have hreleased : Carried P [hook₀]
      [(if result' ≠ .ok then releasePrepared engines hook₁ w₁ else (hook₁, w₁)).1] w₀
      (if result' ≠ .ok then releasePrepared engines hook₁ w₁ else (hook₁, w₁)).2 := by
    split
    · exact hvalidated.andThen (releasePrepared_carried engines hook₁ w₁)
    · exact hvalidated
  generalize (if result' ≠ .ok then releasePrepared engines hook₁ w₁ else (hook₁, w₁)) = released
    at hreleased ⊢
  obtain ⟨hook₂, w₂⟩ := released
  dsimp only at hreleased ⊢
  -- writing the result down changes no token
  generalize hwritten : ({ hook₂ with result := preparedResult engines hook₂ out result' diag' } :
    Hook) = hook₃
  have hsettled : Carried P [hook₀] [hook₃] w₀ (w₂.log (.prepareSettled hook₂.hookId
      (preparedResult engines hook₂ out result' diag').outcome)) := by
    rw [← hwritten]
    exact hreleased.andThen (.silent (World.quiet_log w₂ ⟨rfl, rfl⟩).toAdds rfl)
  generalize w₂.log (.prepareSettled hook₂.hookId
    (preparedResult engines hook₂ out result' diag').outcome) = w₃ at hsettled ⊢
  have hset := hsettled.set hget
  split
  · have hfailed := failDomain_carried engines domains gateOk hook₃
      { st with
        world := w₃, hooks := st.hooks.set index hook₃
        prepared := if result' = .ok then st.prepared + 1 else st.prepared
        failed := st.failed + 1 }
    exact hset.andThen hfailed
  · exact hset

/-- A member of a wave that holds nothing. -/
theorem obtainedMember_carried {hook : Hook} (hidle : hook.preparedState = 0)
    (answer : PrepareGroupAnswer) (offset : Nat) (w : World ε) :
    Carried (answer.accepted = true ∨ (answer.writes offset).prepared = 0) [hook]
      [{ hook with preparedState :=
        if answer.accepted then (answer.writes offset).prepared else 0 }] w
      (w.log (.obtained hook.hookId hook.matchedEngine (answer.writes offset).prepared)) := by
  cases haccepted : answer.accepted with
  | true =>
    exact (obtained_carried hidle _ w).congr (iff_of_true trivial (.inl rfl))
  | false =>
    by_cases hvalue : (answer.writes offset).prepared = 0
    · have hobtained := obtained_carried hidle (answer.writes offset).prepared w
      rw [hvalue] at hobtained ⊢
      exact hobtained.congr (iff_of_true trivial (.inr rfl))
    · -- the value is dropped
      have hnone : tokens [hook] = [] := tokens_eq_nil (by simpa using hidle)
      rw [Carried, hnone, tokens_eq_nil (by simp)]
      exact Custody.Carries.congr (.lose (Event.gives_obtained _ _ hvalue)
        (Event.takes_obtained ..) []) (iff_of_false id (by simpa using hvalue))

/-- The members of a wave, none of which holds anything before. -/
theorem recordPrepareGroup_carried (answer : PrepareGroupAnswer) (index : Nat)
    (outs : List HookResult) (offset : Nat) (st : PrepareState ε)
    (hmembers : ∀ i < outs.length, ∃ hook, st.hooks[index + offset + i]? = some hook ∧
      hook.preparedState = 0) :
    Carried (answer.accepted = true ∨ ∀ i < outs.length,
        (answer.writes (offset + i)).prepared = 0) st.hooks
      (recordPrepareGroup engines answer index outs offset st).hooks st.world
      (recordPrepareGroup engines answer index outs offset st).world := by
  induction outs generalizing offset st with
  | nil => exact (Carried.refl st.hooks st.world).congr (iff_of_true trivial (.inr (by simp)))
  | cons out outs ih =>
    obtain ⟨hook, hget, hidle⟩ := hmembers 0 (Nat.succ_pos _)
    rw [Nat.add_zero] at hget
    have hobtained := obtainedMember_carried hidle answer offset st.world
    rw [recordPrepareGroup, hget]
    dsimp only
    have hprepared : (if answer.accepted = true then answer.writes offset
        else { answer.writes offset with result := .failed, prepared := 0 }).prepared =
        if answer.accepted = true then (answer.writes offset).prepared else 0 := by
      split <;> rfl
    generalize (if answer.accepted = true then answer.writes offset
      else { answer.writes offset with result := .failed, prepared := 0 }) = written
      at hprepared ⊢
    rw [← hprepared] at hobtained
    generalize st.world.log (.obtained hook.hookId hook.matchedEngine
      (answer.writes offset).prepared) = w₁ at hobtained ⊢
    have hinspected : Carried (answer.accepted = true ∨ (answer.writes offset).prepared = 0) [hook]
        [(if written.result = .ok then
          inspectPreparedContinuation engines { hook with preparedState := written.prepared }
            written.diag w₁
        else (written.result, { hook with preparedState := written.prepared }, written.diag,
          w₁)).2.1] st.world
        (if written.result = .ok then
          inspectPreparedContinuation engines { hook with preparedState := written.prepared }
            written.diag w₁
        else (written.result, { hook with preparedState := written.prepared }, written.diag,
          w₁)).2.2.2 := by
      split
      · exact hobtained.andThen (inspectPreparedContinuation_carried engines _ _ _)
      · exact hobtained
    generalize (if written.result = .ok then
        inspectPreparedContinuation engines { hook with preparedState := written.prepared }
          written.diag w₁
      else (written.result, { hook with preparedState := written.prepared }, written.diag,
        w₁)) = inspected at hinspected ⊢
    obtain ⟨result, hook', diag, w⟩ := inspected
    dsimp only at hinspected ⊢
    have hattempt := recordPrepareAttempt_carried engines [] (fun _ ↦ true) result diag out
      { st with world := w } hinspected hget
    refine (hattempt.trans (ih (offset + 1) _ fun i hi ↦ ?_)).congr ?_
    · -- the attempt has set the member it was about only
      obtain ⟨later, hlater, hidle'⟩ := hmembers (i + 1) (Nat.succ_lt_succ hi)
      refine ⟨later, ?_, hidle'⟩
      obtain ⟨hook₂, hhooks, -⟩ := recordPrepareAttempt_hooks engines (fun _ ↦ true)
        (index + offset) result hook' diag out { st with world := w }
      rw [hhooks, List.getElem?_set_ne (by omega), ← hlater]
      congr 1
      omega
    · rw [List.length_cons, Nat.forall_lt_succ_left, ← or_and_left]
      refine or_congr Iff.rfl (and_congr Iff.rfl (forall₂_congr fun i _ ↦ ?_))
      rw [Nat.add_assoc, Nat.add_comm 1 i]

theorem releaseAll_carried (hooks : List Hook) (w : World ε) :
    Carried True hooks (releaseAll engines hooks w).1 w (releaseAll engines hooks w).2 := by
  induction hooks generalizing w with
  | nil => exact .refl _ _
  | cons hook rest ih =>
    exact ((releasePrepared_carried engines hook w).cons (ih _)).congr (iff_of_eq (true_and True))

theorem logPrepareCalls_tokenless (runtime : RuntimeId) (hooks : List Hook) (w : World ε) :
    w.Adds Event.Tokenless (logPrepareCalls runtime hooks w) := by
  induction hooks generalizing w with
  | nil => exact .refl w
  | cons hook rest ih => exact ((World.Adds.refl w).log ⟨rfl, rfl⟩).trans (ih _)

/-- The answer that a pass gets from its grouped callback, if it has a wave of `count` hooks. -/
def PrepareState.groupAnswer (runtime : RuntimeId) (count : Nat) (st : PrepareState ε) :
    PrepareGroupAnswer :=
  let (members, w) := releaseAll engines ((st.hooks.drop st.index).take count) st.world.alloc.2
  (callPrepareGroup engines members (logPrepareCalls runtime members w)).1

/-- The grouped callback keeps nothing for the members of a wave that it refuses. -/
def PrepareGroupAnswer.Clean (answer : PrepareGroupAnswer) (count : Nat) : Prop :=
  answer.accepted = true ∨ ∀ i < count, (answer.writes i).prepared = 0

instance (answer : PrepareGroupAnswer) (count : Nat) : Decidable (answer.Clean count) :=
  inferInstanceAs (Decidable (_ ∨ _))

/-- A wave loses what its grouped callback has stored and refused. -/
theorem prepareGroup_carried (runtime : RuntimeId) {count : Nat} (st : PrepareState ε)
    (hlength : ((st.hooks.drop st.index).take count).length = count) :
    Carried (st.world.alloc.1 = true → (st.groupAnswer engines runtime count).Clean count) st.hooks
      (prepareGroup engines runtime count st).state.hooks st.world
      (prepareGroup engines runtime count st).state.world := by
  have halloc := (World.quiet_alloc (Q := fun _ ↦ False) st.world).toAdds.nothing
  rw [prepareGroup, PrepareState.groupAnswer]
  generalize st.world.alloc = allocated at halloc ⊢
  obtain ⟨ok, w⟩ := allocated
  cases ok with
  | false => exact (Carried.silent halloc rfl).congr (iff_of_true trivial (by simp))
  | true =>
    dsimp only [Flow.state_next] at halloc ⊢
    have hreleased := releaseAll_carried engines ((st.hooks.drop st.index).take count) w
    obtain ⟨hpointwise, -⟩ := releaseAll_spec engines ((st.hooks.drop st.index).take count) w
    have hlength' := hpointwise.length_eq
    generalize releaseAll engines ((st.hooks.drop st.index).take count) w = released
      at hreleased hpointwise hlength' ⊢
    obtain ⟨members, w₁⟩ := released
    dsimp only at hreleased hpointwise hlength' ⊢
    -- the wave among the hooks of the plan
    have hsplit : st.hooks = st.hooks.take st.index ++ ((st.hooks.drop st.index).take count ++
        st.hooks.drop (st.index + count)) := by
      rw [← List.drop_drop, List.take_append_drop, List.take_append_drop]
    have hall : Carried True st.hooks
        (st.hooks.take st.index ++ members ++ st.hooks.drop (st.index + count)) st.world w₁ := by
      have hframed := (Carried.refl (st.hooks.take st.index) w).append
        (hreleased.append (.refl (st.hooks.drop (st.index + count)) w₁))
      rw [← hsplit, ← List.append_assoc] at hframed
      exact ((Carried.silent halloc rfl).trans hframed).congr (by simp)
    have hcall := (logPrepareCalls_tokenless runtime members w₁).trans
      (callPrepareGroup_quiet (Q := Event.Tokenless) engines members
        (logPrepareCalls runtime members w₁)).toAdds
    generalize callPrepareGroup engines members (logPrepareCalls runtime members w₁) = called
      at hcall ⊢
    obtain ⟨answer, w₂⟩ := called
    dsimp only at hcall ⊢
    have hindex : 0 < members.length → (st.hooks.take st.index).length = st.index := by
      rw [← hlength', List.length_take, List.length_drop, List.length_take]
      omega
    have hrecord := recordPrepareGroup_carried engines answer st.index
      (((st.hooks.drop st.index).take count).map Hook.result) 0
      { st with
        world := w₂
        hooks := st.hooks.take st.index ++ members ++ st.hooks.drop (st.index + count)
        attempted := st.attempted + count } fun i hi ↦ by
          rw [List.length_map, hlength'] at hi
          have hindex := hindex (Nat.zero_lt_of_lt hi)
          refine ⟨members[i], ?_, ?_⟩
          · rw [Nat.add_zero, List.append_assoc, List.getElem?_append_right (by omega), hindex,
              Nat.add_sub_cancel_left, List.getElem?_append_left hi, List.getElem?_eq_getElem hi]
          · obtain ⟨_, -, -, hidle⟩ := Pointwise.mem_right hpointwise (List.getElem_mem hi)
            exact hidle
    rw [List.length_map, hlength] at hrecord
    refine (hall.before ((Carried.silent hcall rfl).before hrecord)).congr ?_
    simp only [Nat.zero_add, true_imp_iff]
    rfl

/-- **The condition of a pass**: if its wave is refused, the engine has stored nothing. -/
def PrepareState.RefusesClean (runtime : RuntimeId) (st : PrepareState ε) : Prop :=
  let count := prepareGroupCount engines (st.world.env.generation runtime) st.hooks st.index
  1 < count → st.world.alloc.1 = true → (st.groupAnswer engines runtime count).Clean count

instance (runtime : RuntimeId) (st : PrepareState ε) :
    Decidable (st.RefusesClean engines runtime) :=
  inferInstanceAs (Decidable (_ → _ → _))

/-- Who starts a wave is there. -/
theorem prepareGroupCount_starts {generation : Nat} {hooks : List Hook} {start : Nat}
    (h : 1 < prepareGroupCount engines generation hooks start) :
    ∃ hook, hooks[start]? = some hook ∧ hook.result.outcome = .analyzed := by
  obtain ⟨first, rest, heq, hanalyzed, -⟩ := prepareGroupCount_spec h
  refine ⟨first, ?_, hanalyzed⟩
  have hhead := congrArg List.head? heq
  rw [List.head?_take, if_neg (Nat.ne_zero_of_lt h)] at hhead
  rw [← List.head?_drop]
  exact hhead

/-- **A pass** loses what is stored for a wave that is refused, and nothing else. -/
theorem prepareIter_carried (runtime : RuntimeId) (domains : List Domain) (gateOk : Id → Bool)
    (st : PrepareState ε) :
    Carried (st.RefusesClean engines runtime) st.hooks
      (prepareIter engines runtime domains gateOk st).state.hooks st.world
      (prepareIter engines runtime domains gateOk st).state.world := by
  -- a pass without a wave
  have hsingle :
      ¬1 < prepareGroupCount engines (st.world.env.generation runtime) st.hooks st.index →
      ∀ {hooks' : List Hook} {w' : World ε}, Carried True st.hooks hooks' st.world w' →
        Carried (st.RefusesClean engines runtime) st.hooks hooks' st.world w' :=
    fun hcount _ _ h ↦ h.congr (iff_of_true trivial fun hmore ↦ absurd hmore hcount)
  have hkept := Carried.refl st.hooks st.world
  rw [prepareIter]
  split
  · rename_i hnone
    refine hsingle (fun hcount ↦ ?_) hkept
    obtain ⟨hook, hget, -⟩ := prepareGroupCount_starts engines hcount
    cases hnone.symm.trans hget
  rename_i hook hget
  split
  · rename_i houtcome
    refine hsingle (fun hcount ↦ ?_) hkept
    obtain ⟨hook', hget', hanalyzed⟩ := prepareGroupCount_starts engines hcount
    cases hget.symm.trans hget'
    exact houtcome hanalyzed
  dsimp only
  -- a hook that is settled without its engine
  have hsettled : ∀ out : HookResult, ∀ e : Event, e.Tokenless →
      Carried True st.hooks (st.hooks.set st.index { hook with result := out }) st.world
        (st.world.log e) := by
    intro out e he
    have hone : Carried True [hook] [{ hook with result := out }] st.world (st.world.log e) :=
      .silent (World.quiet_log st.world he).toAdds rfl
    exact hone.set hget
  split
  · rename_i hcount
    refine (prepareGroup_carried engines runtime st (prepareGroupCount_length engines hcount)).congr
      ⟨fun h _ ↦ h, fun h ↦ h hcount⟩
  rename_i hcount
  refine hsingle hcount ?_
  split
  · have hstale := hsettled { hook.result with
      outcome := .stalePlan, retryable := true, currentlyValid := false }
      (.prepareSettled hook.hookId .stalePlan) ⟨rfl, rfl⟩
    exact hstale.andThen (failDomain_carried engines domains gateOk _
      { st with
        world := st.world.log (.prepareSettled hook.hookId .stalePlan)
        hooks := st.hooks.set st.index { hook with
          result := { hook.result with
            outcome := .stalePlan, retryable := true, currentlyValid := false } }
        failed := st.failed + 1 })
  · split
    · exact hsettled { hook.result with outcome := .failedSafe } _ ⟨rfl, rfl⟩
    · have hreleased := releasePrepared_carried engines hook st.world
      have hdispatched := hreleased.andThen (dispatchPrepare_carried engines .single runtime
        (releasePrepared_preparedState engines hook st.world) _)
      exact recordPrepareAttempt_carried engines domains gateOk _ _ hook.result
        { st with
          attempted := st.attempted + 1
          world := (dispatchPrepare engines .single runtime (releasePrepared engines hook
            st.world).1 (releasePrepared engines hook st.world).2).2.2.2 } hdispatched hget

/-- **The loop.** -/
theorem run_carried (more : PrepareState ε → Bool) {body : PrepareState ε → Flow (PrepareState ε)}
    {C : PrepareState ε → Prop}
    (hbody : ∀ st, Carried (C st) st.hooks (body st).state.hooks st.world (body st).state.world)
    (fuel : Nat) (st : PrepareState ε) :
    Carried (∀ st' ∈ visited more body fuel st, C st') st.hooks (run more body fuel st).state.hooks
      st.world (run more body fuel st).state.world := by
  induction fuel generalizing st with
  | zero => exact (Carried.refl st.hooks st.world).congr (iff_of_true trivial (by simp [visited]))
  | succ fuel ih =>
    rw [run, visited]
    split
    · have hpass := hbody st
      cases hflow : body st with
      | next st' =>
        rw [hflow] at hpass
        exact (hpass.trans (ih st')).congr List.forall_mem_cons.symm
      | stop st' =>
        rw [hflow] at hpass
        exact hpass.congr (by simp)
    · exact (Carried.refl st.hooks st.world).congr (iff_of_true trivial (by simp))

/-- **A call of `hk_plan_prepare`** loses tokens in its passes only. -/
theorem preparePlan_carried (plan : Plan) (w : World ε) :
    Carried (∀ st ∈ preparePasses engines plan w, st.RefusesClean engines plan.runtime) plan.hooks
      (preparePlan engines plan w).2.1.hooks w (preparePlan engines plan w).2.2 := by
  rw [preparePasses, preparePlan]
  split
  · exact (Carried.refl plan.hooks w).congr (iff_of_true trivial (by simp))
  · have halloc := (allocPrepare_quiet (Q := fun _ ↦ False) plan w).toAdds.nothing
    generalize allocPrepare plan w = allocated at halloc ⊢
    obtain ⟨ok, w₁⟩ := allocated
    cases ok with
    | false => exact (Carried.silent halloc rfl).congr (iff_of_true trivial (by simp))
    | true =>
      dsimp only at halloc ⊢
      have hloop := (Carried.silent halloc rfl).before (run_carried
        (fun st ↦ decide (st.index < plan.hooks.length))
        (prepareIter_carried engines plan.runtime plan.domains (domainGateOk plan))
        plan.hooks.length (.start plan.hooks w₁))
      have hrun : prepareLoop engines plan w₁ = run
          (fun st ↦ decide (st.index < plan.hooks.length))
          (prepareIter engines plan.runtime plan.domains (domainGateOk plan)) plan.hooks.length
          (.start plan.hooks w₁) := rfl
      rw [← hrun] at hloop
      cases hflow : prepareLoop engines plan w₁ with
      | stop st =>
        rw [hflow] at hloop
        exact hloop
      | next st =>
        rw [hflow] at hloop
        dsimp only [Flow.state_next] at hloop ⊢
        have hreport := (createReport_quiet (Q := fun _ ↦ False) plan.hooks.length
          st.world).toAdds.nothing
        generalize createReport plan.hooks.length st.world = report at hreport ⊢
        obtain ⟨ok', w₂⟩ := report
        cases ok' <;> exact hloop.andThen (.silent hreport rfl)

end Preparation

/-! ## Commits -/

/-- What a commit hands to commit and verification callbacks are the values of these hooks, between
these moments. -/
structure Handover (ε : Type) where
  hooks : List Hook
  start : World ε
  stop : World ε

/-- Whatever the hooks hold is out, and stays out until the callbacks are done. -/
structure Handover.Live (h : Handover ε) : Prop where
  held : ∀ hook ∈ h.hooks, ∀ t ∈ hook.token,
    Custody.taken Event.takes t h.start.history < Custody.given Event.gives t h.start.history
  kept : h.start.Adds Event.Tokenless h.stop

/-- What is held is out. -/
theorem live_of_covered {hooks : List Hook} {history : List Event}
    (h : Custody.Covered Event.gives Event.takes (tokens hooks) history) :
    ∀ hook ∈ hooks, ∀ t ∈ hook.token,
      Custody.taken Event.takes t history < Custody.given Event.gives t history := by
  intro hook hmem t ht
  have hcount : 0 < (tokens hooks).count t :=
    List.count_pos_iff.mpr (List.mem_filterMap.mpr ⟨hook, hmem, ht⟩)
  have hk := h t
  omega

section Commit

variable (engines : EngineRef → Engine ε)

theorem Hook.Same.token {hook hook' : Hook} (h : hook.Same hook')
    (hprepared : hook'.preparedState = hook.preparedState) : hook'.token = hook.token := by
  rw [Hook.token, Hook.token, hprepared, h.hookId, h.matchedEngine]

theorem markDomainCommitPreflightFailed_token (generation : Nat) (domain : Id) (hooks : List Hook)
    (w : World ε) :
    List.Forall₂ (fun h h' ↦ h'.token = h.token) hooks
      (markDomainCommitPreflightFailed engines generation domain hooks w).1 := by
  induction hooks generalizing w with
  | nil => exact .nil
  | cons hook rest ih =>
    rw [markDomainCommitPreflightFailed]
    split
    · exact .cons rfl (ih _)
    · exact .cons rfl (ih w)

theorem Event.settles.tokenless {hooks hooks' : List Hook} {e : Event}
    (h : e.settles hooks hooks') : e.Tokenless := by
  cases e <;> first | exact h.elim | exact ⟨rfl, rfl⟩

/-- A pass of a commit leaves every hook what it holds. -/
theorem CommitPass.token {engines : EngineRef → Engine ε} {plan : CommitPlan} {st : CommitState ε}
    {flow : Flow (CommitState ε)} (h : CommitPass engines plan st flow) (hnodup : plan.order.Nodup)
    (hvalid : ∀ i ∈ plan.order, i < st.hooks.length) :
    List.Forall₂ (fun h h' ↦ h'.token = h.token) st.hooks flow.state.hooks := by
  have hrefl : ∀ h : Hook, h.token = h.token := fun _ ↦ rfl
  cases h with
  | skip => exact Pointwise.refl hrefl _
  | exhausted => exact Pointwise.refl hrefl _
  | wave hvisits hcount hmembers hlater hwave hcommitted =>
    refine writeBack_forall₂ hrefl (fun _ _ _ h h' ↦ h'.trans h)
      (fun i hi ↦ hvalid i (List.mem_of_mem_drop (List.mem_of_mem_take hi)))
      ((hnodup.sublist (List.drop_sublist _ _)).sublist (List.take_sublist _ _)) ?_
    rw [hwave]
    exact hcommitted.settles.imp fun h h' hsettles ↦ hsettles.toSame.token hsettles.preparedState
  | refused => exact markDomainCommitPreflightFailed_token engines _ _ _ _
  | stale hvisits => exact Pointwise.set hrefl hvisits.get rfl
  | dependency hvisits => exact Pointwise.set hrefl hvisits.get rfl
  | single hvisits _ _ _ hcommitted =>
    exact Pointwise.set hrefl hvisits.get (hcommitted.same.token hcommitted.preparedState)

/-- **The rule for the loop**: the hooks hold what they held, in every pass and at the end. -/
theorem commitLoop_tokens {plan : CommitPlan} {hooks : List Hook} {w : World ε}
    (hnodup : plan.order.Nodup) (hvalid : ∀ i ∈ plan.order, i < hooks.length) :
    (tokens (commitLoop engines plan hooks w).state.hooks = tokens hooks ∧
        w.Adds Event.Tokenless (commitLoop engines plan hooks w).state.world) ∧
      ∀ st ∈ commitVisited engines plan hooks w, tokens st.hooks = tokens hooks ∧
        w.Adds Event.Tokenless st.world ∧
        st.world.Adds Event.Tokenless (commitIter engines plan st).state.world := by
  let I : CommitState ε → Prop := fun st ↦ st.hooks.length = hooks.length ∧
    tokens st.hooks = tokens hooks ∧ w.Adds Event.Tokenless st.world
  have hstart : I (.start hooks w) := ⟨rfl, rfl, .refl w⟩
  have hsteps : ∀ st flow, I st → CommitPass engines plan st flow →
      I flow.state ∧ st.world.Adds Event.Tokenless flow.state.world := by
    rintro st flow ⟨hlength, htokens, hadds⟩ hpass
    have hvalid' : ∀ i ∈ plan.order, i < st.hooks.length := fun i hi ↦ hlength ▸ hvalid i hi
    have hpassed := hpass.token hnodup hvalid'
    have hevents := (hpass.events hvalid' hnodup).mono fun _ ↦ Event.settles.tokenless
    exact ⟨⟨hpassed.length_eq.symm.trans hlength, (tokens_congr hpassed).trans htokens,
      hadds.trans hevents⟩, hevents⟩
  refine ⟨?_, fun st hmem ↦ ?_⟩
  · exact (commitLoop_induction I hnodup hvalid hstart fun st _ flow hst hp ↦
      (hsteps st flow hst hp).1).2
  · obtain ⟨hst, hpass, -⟩ := commitVisited_induction hmem I hnodup hvalid hstart
      fun st _ flow hst hp ↦ (hsteps st flow hst hp).1
    exact ⟨hst.2.1, hst.2.2, (hsteps st _ hst hpass).2⟩

/-- What a call of `hk_plan_commit` hands over. -/
def commitHandovers (runtime : Runtime) (plan : Plan) (w : World ε) : List (Handover ε) :=
  (commitPasses engines runtime plan w).map fun pass ↦
    ⟨pass.2.hooks, pass.2.world, (commitIter engines pass.1 pass.2).state.world⟩

/-- **A call of `hk_plan_commit`** loses no token. -/
theorem commitPlan_carried (runtime : Runtime) (plan : Plan) (w : World ε) :
    Carried True plan.hooks (commitPlan engines runtime plan w).2.1.hooks w
      (commitPlan engines runtime plan w).2.2.2 := by
  rcases commitPlan_cases engines runtime plan w with
    ⟨status, w', -, heq, hquiet⟩ | ⟨order, w₁, status, plan', runtime', w', heq, hran⟩
  · rw [heq]
    exact .silent hquiet.toAdds.nothing rfl
  · obtain ⟨state, rfl, -⟩ := hran.planAfter
    obtain ⟨⟨htokens, hadds⟩, -⟩ := @commitLoop_tokens _ engines (plan.toCommit runtime order)
      plan.hooks w₁ hran.nodup fun i hi ↦ (hran.prepared i hi).lt
    rw [heq]
    exact .silent ((hran.before.toAdds.nothing.trans hadds).trans hran.after.toAdds.nothing) htokens

/-- What it hands over are values that are out. -/
theorem commitHandovers_live {runtime : Runtime} {plan : Plan} {w : World ε}
    (hcovered : Custody.Covered Event.gives Event.takes (tokens plan.hooks) w.history) :
    ∀ h ∈ commitHandovers engines runtime plan w, h.Live := by
  intro h hmem
  obtain ⟨pass, hpass, rfl⟩ := List.mem_map.mp hmem
  rcases commitPlan_passes engines runtime plan w with
    ⟨hnone, -⟩ | ⟨order, w₁, hbefore, hnodup, hvalid, hpasses, -⟩
  · rw [hnone] at hpass
    cases hpass
  · rw [hpasses] at hpass
    obtain ⟨st, hst, rfl⟩ := List.mem_map.mp hpass
    obtain ⟨htokens, hadds, hkept⟩ := (commitLoop_tokens engines hnodup hvalid).2 st hst
    have hcarried : Carried True plan.hooks st.hooks w st.world :=
      .silent (hbefore.toAdds.nothing.trans hadds) htokens
    exact ⟨live_of_covered (hcarried.covered hcovered), hkept⟩

end Commit

/-! ## The pending queue -/

section Queue

variable (engines : EngineRef → Engine ε)

theorem inspectPreparedContinuation_applicable (hook : Hook) (diag : PrepareDiag) (w : World ε) :
    (inspectPreparedContinuation engines hook diag w).1 ≠ .notApplicable := by
  rw [inspectPreparedContinuation]
  split
  · simp
  · dsimp only
    split
    · simp
    · split <;> simp
    · simp

/-- A queued hook that goes on waiting holds nothing. -/
theorem drainPrepare_waiting {runtime : RuntimeId} {hook : Hook} {w : World ε}
    (h : (drainPrepare engines runtime hook w).1 = .notApplicable) :
    (drainPrepare engines runtime hook w).2.1.preparedState = 0 := by
  have hdispatch : (dispatchPrepare engines .drain runtime hook w).1 = .notApplicable →
      (dispatchPrepare engines .drain runtime hook w).2.1.preparedState = 0 := by
    intro hresult
    rw [dispatchPrepare] at hresult ⊢
    split at hresult
    · cases hresult
    · rename_i answer env hanswer
      dsimp only at hresult ⊢
      split at hresult
      · exact absurd hresult (inspectPreparedContinuation_applicable engines _ _ _)
      · rename_i hok
        rw [if_neg hok]
        exact prepareAnswer_waiting hanswer hresult
  rw [drainPrepare] at h ⊢
  generalize dispatchPrepare engines .drain runtime hook w = dispatched at h hdispatch ⊢
  obtain ⟨result, hook₁, diag, w₁⟩ := dispatched
  dsimp only at h hdispatch ⊢
  rw [validatePrepareEffects] at h ⊢
  split at h
  · rename_i hdeclared
    rw [if_pos hdeclared]
    exact hdispatch h
  · cases h

theorem drainPrepare_carried (runtime : RuntimeId) {hook : Hook} (hidle : hook.preparedState = 0)
    (w : World ε) :
    Carried True [hook] [(drainPrepare engines runtime hook w).2.1] w
      (drainPrepare engines runtime hook w).2.2.2 := by
  have hdispatched := dispatchPrepare_carried engines .drain runtime hidle w
  rw [drainPrepare]
  generalize dispatchPrepare engines .drain runtime hook w = dispatched at hdispatched ⊢
  obtain ⟨result, hook₁, diag, w₁⟩ := dispatched
  exact hdispatched.andThen (validatePrepareEffects_carried engines result hook₁ diag w₁)

theorem CommittedOne.tokenless {engines : EngineRef → Engine ε} {path : Path} {runtime : RuntimeId}
    {hook hook' : Hook} {w w' : World ε} (h : CommittedOne engines path runtime hook w hook' w') :
    w.Adds Event.Tokenless w' := by
  obtain ⟨mid, required, published, hadds, rfl, -, -⟩ := h.world
  refine (hadds.mono fun e he ↦ ?_).log ⟨rfl, rfl⟩
  rw [he.1]
  exact ⟨rfl, rfl⟩

/-- One queued hook that holds nothing: it goes on waiting like that, or it is freed. -/
theorem drainOne_carried (runtime : RuntimeId) (ownerId : Id) {hook : Hook}
    (hidle : hook.preparedState = 0) (ledger : Ledger) (w : World ε) :
    Carried True [hook] (drainOne engines runtime ownerId hook ledger w).1.kept.toList w
        (drainOne engines runtime ownerId hook ledger w).2.2 ∧
      ∀ kept ∈ (drainOne engines runtime ownerId hook ledger w).1.kept, kept.preparedState = 0 := by
  have hprepared := drainPrepare_carried engines runtime hidle w
  have hwaiting := @drainPrepare_waiting _ engines runtime hook w
  rw [drainOne]
  generalize drainPrepare engines runtime hook w = prepared at hprepared hwaiting ⊢
  obtain ⟨result, hook₁, out, w₁⟩ := prepared
  dsimp only at hprepared hwaiting
  cases result with
  | notApplicable =>
    have hidle₁ := hwaiting rfl
    refine ⟨hprepared.andThen (.silent (World.quiet_log w₁ ⟨rfl, rfl⟩).toAdds rfl), ?_⟩
    rintro kept ⟨⟩
    exact hidle₁
  | failed =>
    have hlogged : Carried True [hook₁]
        [{ hook₁ with result := { out with outcome := .failedSafe, retryable := false } }] w₁
        (w₁.log (.prepareSettled hook₁.hookId .failedSafe)) :=
      .silent (World.quiet_log w₁ ⟨rfl, rfl⟩).toAdds rfl
    exact ⟨(hprepared.andThen hlogged).andThen (freeHook_carried engines _ _), by simp⟩
  | ok =>
    have hcommitted := commitOneHook_spec engines .drain runtime out.planId ownerId none hook₁ out
      ledger w₁
    have hheld : Carried True [hook₁] [(commitOneHook engines .drain runtime out.planId ownerId none
        hook₁ out ledger w₁).1] w₁ (commitOneHook engines .drain runtime out.planId ownerId none
        hook₁ out ledger w₁).2.2 :=
      .silent hcommitted.tokenless (by
        rw [tokens_singleton, tokens_singleton, hcommitted.same.token hcommitted.preparedState])
    exact ⟨(hprepared.andThen hheld).andThen (freeHook_carried engines _ _), by simp⟩

/-- What the loop of a drain hands over. -/
def drainHandovers (runtime : RuntimeId) (ownerId : Id) :
    List Hook → Ledger → World ε → List (Handover ε)
  | [], _, _ => []
  | hook :: rest, ledger, w =>
    let drained := drainOne engines runtime ownerId hook ledger w
    let later := drainHandovers runtime ownerId rest drained.2.1 drained.2.2
    match drainPrepare engines runtime hook w with
    | (.ok, hook, out, w) =>
      ⟨[hook], w, (commitOneHook engines .drain runtime out.planId ownerId none hook out ledger
        w).2.2⟩ :: later
    | _ => later

/-- **The loop of a drain** loses no token, and hands over values that are out. -/
theorem drainLoop_carried (runtime : RuntimeId) (ownerId : Id) {hooks : List Hook}
    (hidle : ∀ hook ∈ hooks, hook.preparedState = 0) (ledger : Ledger) (w : World ε) :
    Carried True hooks
        ((drainLoop engines runtime ownerId hooks ledger w).1.filterMap Drained.kept) w
        (drainLoop engines runtime ownerId hooks ledger w).2.2 ∧
      (∀ hook ∈ (drainLoop engines runtime ownerId hooks ledger w).1.filterMap Drained.kept,
        hook.preparedState = 0) ∧
      (Custody.Covered Event.gives Event.takes [] w.history →
        ∀ h ∈ drainHandovers engines runtime ownerId hooks ledger w, h.Live) := by
  induction hooks generalizing ledger w with
  | nil => exact ⟨.refl _ _, by simp [drainLoop], by simp [drainHandovers]⟩
  | cons hook rest ih =>
    have hidle₀ := hidle hook List.mem_cons_self
    have hnone : tokens [hook] = [] := tokens_eq_nil (by simpa using hidle₀)
    obtain ⟨hone, hkept⟩ := drainOne_carried engines runtime ownerId hidle₀ ledger w
    have hprepared := drainPrepare_carried engines runtime hidle₀ w
    rw [drainLoop, drainHandovers]
    generalize drainOne engines runtime ownerId hook ledger w = drained at hone hkept ⊢
    obtain ⟨drained, ledger₁, w₁⟩ := drained
    dsimp only at hone hkept ⊢
    obtain ⟨hrest, hkeptRest, hlater⟩ := ih (fun h hh ↦ hidle h (List.mem_cons_of_mem hook hh))
      ledger₁ w₁
    have hsplit : ∀ later : List Drained, (drained :: later).filterMap Drained.kept =
        drained.kept.toList ++ later.filterMap Drained.kept := by
      intro later
      rw [List.filterMap_cons]
      cases drained.kept <;> rfl
    rw [hsplit]
    refine ⟨(hone.append hrest).congr (iff_of_eq (true_and True)), fun h hh ↦ ?_, fun hcovered ↦ ?_⟩
    · rcases List.mem_append.mp hh with hh | hh
      · exact hkept h (Option.mem_toList.mp hh)
      · exact hkeptRest h hh
    · have hcovered₁ : Custody.Covered Event.gives Event.takes [] w₁.history := by
        have hall := hone.covered (hnone.symm ▸ hcovered)
        rwa [tokens_eq_nil fun h hh ↦ hkept h (Option.mem_toList.mp hh)] at hall
      have hlater := hlater hcovered₁
      split
      · rename_i hook₁ out w₂ heq
        rw [heq] at hprepared
        refine List.forall_mem_cons.mpr ⟨⟨?_, ?_⟩, hlater⟩
        · exact live_of_covered (hprepared.covered (hnone.symm ▸ hcovered))
        · exact (commitOneHook_spec engines _ _ _ _ _ _ _ _ _).tokenless
      · exact hlater

/-- What a call of `hk_runtime_drain_pending` hands over. -/
def drainPendingHandovers (runtimeId : RuntimeId) (runtime : Runtime) (w : World ε) :
    List (Handover ε) :=
  match w.alloc with
  | (false, _) => []
  | (true, w) =>
    match w.alloc with
    | (false, _) => []
    | (true, w) => drainHandovers engines runtimeId runtime.ownerId runtime.pending .empty w

/-- **A call of `hk_runtime_drain_pending`** on a queue whose hooks hold nothing. -/
theorem drainPending_carried (runtimeId : RuntimeId) {runtime : Runtime}
    (hidle : ∀ hook ∈ runtime.pending, hook.preparedState = 0) (w : World ε) :
    Carried True runtime.pending (drainPending engines runtimeId runtime w).2.2.2.1.pending w
        (drainPending engines runtimeId runtime w).2.2.2.2 ∧
      ∀ hook ∈ (drainPending engines runtimeId runtime w).2.2.2.1.pending,
        hook.preparedState = 0 := by
  rcases drainPending_cases engines runtimeId runtime w with
    ⟨status, w', heq, hquiet⟩ | ⟨w₁, status, results, ledger, runtime', w', heq, hran⟩
  · rw [heq]
    exact ⟨.silent hquiet.toAdds.nothing rfl, hidle⟩
  · obtain ⟨hloop, hkept, -⟩ := drainLoop_carried engines runtimeId runtime.ownerId hidle .empty w₁
    obtain ⟨artifacts, rfl⟩ := hran.runtimeAfter
    rw [heq]
    refine ⟨?_, hkept⟩
    exact (Carried.silent hran.before.toAdds.nothing rfl).before
      (hloop.andThen (.silent hran.after.toAdds.nothing rfl))

/-- What it hands over are values that are out. -/
theorem drainPendingHandovers_live (runtimeId : RuntimeId) {runtime : Runtime} {w : World ε}
    (hidle : ∀ hook ∈ runtime.pending, hook.preparedState = 0)
    (hcovered : Custody.Covered Event.gives Event.takes [] w.history) :
    ∀ h ∈ drainPendingHandovers engines runtimeId runtime w, h.Live := by
  have hhistory : ∀ w : World ε, w.alloc.2.history = w.history := fun w ↦
    (World.quiet_alloc (Q := fun _ ↦ False) w).history_eq
  have hfirst := hhistory w
  rw [drainPendingHandovers]
  generalize w.alloc = first at hfirst ⊢
  obtain ⟨ok, w₁⟩ := first
  cases ok with
  | false => simp
  | true =>
    have hsecond := hhistory w₁
    dsimp only at hfirst ⊢
    generalize w₁.alloc = second at hsecond ⊢
    obtain ⟨ok', w₂⟩ := second
    cases ok' with
    | false => simp
    | true =>
      refine (drainLoop_carried engines runtimeId runtime.ownerId hidle .empty w₂).2.2 ?_
      rw [hsecond, hfirst]
      exact hcovered

/-- The queued hooks hold nothing when the runtime goes. -/
theorem freeAll_carried (hooks : List Hook) (w : World ε) :
    Carried True hooks [] w (hooks.foldl (fun w hook ↦ freeHook engines hook w) w) := by
  induction hooks generalizing w with
  | nil => exact .refl [] w
  | cons hook rest ih =>
    exact ((freeHook_carried engines hook w).append (ih _)).congr (iff_of_eq (true_and True))

/-- **A released plan**: the hooks that wait hold nothing, and the others are freed. -/
theorem releaseHooks_carried {hooks : List Hook}
    (hwaiting : ∀ hook ∈ hooks, hook.result.outcome = .pending → hook.preparedState = 0)
    (runtime : Runtime) (w : World ε) :
    Carried True hooks [] w (releaseHooks engines hooks runtime w).2 := by
  induction hooks generalizing runtime w with
  | nil => exact .refl [] w
  | cons hook rest ih =>
    have ih := ih fun h hh ↦ hwaiting h (List.mem_cons_of_mem hook hh)
    have hfreed : ∀ w, Carried True (hook :: rest) [] w
        (releaseHooks engines rest runtime (freeHook engines hook w)).2 := fun w ↦
      ((freeHook_carried engines hook w).append (ih runtime _)).congr (iff_of_eq (true_and True))
    rw [releaseHooks]
    split
    · rename_i hpending
      have hnone : tokens (hook :: rest) = tokens rest := by
        rw [tokens_cons, Hook.token_eq_none.mpr (hwaiting hook List.mem_cons_self hpending)]
        rfl
      rw [adoptPendingHook]
      generalize growArray runtime.pending.length runtime.pendingCapacity w.env = grown
      obtain ⟨ok, env⟩ := grown
      have henv : Carried True (hook :: rest) (hook :: rest) w (w.setEnv env) :=
        .silent (World.quiet_setEnv w env).toAdds rfl
      cases ok with
      | false => exact henv.andThen (hfreed _)
      | true =>
        have hadopted := ih { runtime with
          pending := runtime.pending ++ [hook]
          pendingCapacity := grownCapacity runtime.pending.length runtime.pendingCapacity }
          (w.setEnv env)
        rw [Carried, ← hnone] at hadopted
        exact henv.andThen hadopted
    · exact hfreed w

end Queue

end HookKit
