import HookKit.Plan.Account
import HookKit.Plan.Prepared

/-!
# Prepared values over whole runs

Whatever a preparation callback hands over belongs to one hook, wherever the hook goes: from a plan
to the pending queue of its runtime, and out of the process.

* `System.Linear` — what is out is what the hooks hold, and nothing is handed back twice.
* `System.UsedLinearly` — a call leaves the process so, and hands only values that are out to commit
  and verification callbacks.
* `System.RefusesClean` — no wave of a preparation is refused after its engine has stored something.
* `System.usedLinearly_iff` — the first two are true of a run if and only if the third is.
-/

set_option autoImplicit false

namespace HookKit

open Trace

variable {ε : Type}

/-! ## Hooks with identifiers of their own -/

theorem Hook.token_hook {hook : Hook} {t : Token} (h : hook.token = some t) :
    t.hook = hook.hookId := by
  rw [Hook.token] at h
  split at h
  · cases h
  · cases h
    rfl

/-- Nobody holds the token of somebody else. -/
theorem count_tokens_of_ne {hooks : List Hook} {t : Token}
    (h : ∀ hook ∈ hooks, hook.hookId ≠ t.hook) : (tokens hooks).count t = 0 := by
  refine List.count_eq_zero.mpr fun hmem ↦ ?_
  obtain ⟨hook, hhook, htoken⟩ := List.mem_filterMap.mp hmem
  exact h hook hhook (Hook.token_hook htoken).symm

/-- A hook holds its own. -/
theorem count_tokens {hooks : List Hook} (hnodup : (hooks.map Hook.hookId).Nodup) {hook : Hook}
    (hmem : hook ∈ hooks) {t : Token} (ht : t.hook = hook.hookId) :
    (tokens hooks).count t = if hook.token = some t then 1 else 0 := by
  obtain ⟨before, after, rfl⟩ := List.append_of_mem hmem
  rw [List.map_append, List.map_cons] at hnodup
  have hapart := List.nodup_middle.mp hnodup
  rw [List.nodup_cons, List.mem_append] at hapart
  have hothers : ∀ l : List Hook, hook.hookId ∉ l.map Hook.hookId → (tokens l).count t = 0 := by
    intro l hl
    refine count_tokens_of_ne fun other hother heq ↦ hl ?_
    rw [← ht, ← heq]
    exact List.mem_map_of_mem hother
  rw [tokens_append, tokens_cons, List.count_append, List.count_append,
    hothers before fun h ↦ hapart.1 (.inl h), hothers after fun h ↦ hapart.1 (.inr h)]
  cases hook.token with
  | none => simp
  | some t' =>
    by_cases heq : t' = t <;> simp [heq]

namespace System

/-! ## The process -/

/-- What is out is what the hooks hold, and nothing was handed back that was not out. -/
structure Linear (s : System ε) : Prop where
  held : ∀ place, ∀ hook ∈ s.held place, ∀ t : Token, t.hook = hook.hookId →
    Custody.given Event.gives t s.world.history =
      Custody.taken Event.takes t s.world.history + if hook.token = some t then 1 else 0
  gone : ∀ t : Token, (∀ place, ∀ hook ∈ s.held place, hook.hookId ≠ t.hook) →
    Custody.given Event.gives t s.world.history = Custody.taken Event.takes t s.world.history
  once : Custody.Once Event.gives Event.takes s.world.history

/-- The hook of the token can only be in one place. -/
def OnlyIn (s : System ε) (t : Token) (place : Place) : Prop :=
  ∀ other, other ≠ place → ∀ hook ∈ s.held other, hook.hookId ≠ t.hook

/-- Place by place. -/
def Balances (s : System ε) : Prop :=
  ∀ t place, s.OnlyIn t place → Custody.given Event.gives t s.world.history =
    Custody.taken Event.takes t s.world.history + (tokens (s.held place)).count t

section Balances

variable {s s' : System ε} {place : Place} {t : Token}

/-- A hook is in one place only. -/
theorem Accounts.onlyIn (h : s.Accounts) {hook : Hook} (hmem : hook ∈ s.held place)
    (ht : hook.hookId = t.hook) : s.OnlyIn t place := by
  intro other hne hook' hmem' ht'
  refine h.apart.disjoint place other (Ne.symm hne) hook.hookId (List.mem_map_of_mem hmem) ?_
  rw [ht, ← ht']
  exact List.mem_map_of_mem hmem'

/-- Either the token can only be in the place, or its hook is in another one. -/
theorem Accounts.onlyIn_or (h : s.Accounts) (t : Token) (place : Place) :
    s.OnlyIn t place ∨ ∃ other, other ≠ place ∧ s.OnlyIn t other ∧
      ∀ hook ∈ s.held place, hook.hookId ≠ t.hook := by
  by_cases hother : ∃ other, other ≠ place ∧ ∃ hook ∈ s.held other, hook.hookId = t.hook
  · obtain ⟨other, hne, hook, hmem, ht⟩ := hother
    have honly := h.onlyIn hmem ht
    exact .inr ⟨other, hne, honly, honly place (Ne.symm hne)⟩
  · left
    intro other hne hook hmem ht
    exact hother ⟨other, hne, hook, hmem, ht⟩

theorem Accounts.linear_iff (h : s.Accounts) :
    s.Linear ↔ s.Balances ∧ Custody.Once Event.gives Event.takes s.world.history := by
  constructor
  · intro hlinear
    refine ⟨fun t place honly ↦ ?_, hlinear.once⟩
    by_cases hhere : ∃ hook ∈ s.held place, hook.hookId = t.hook
    · obtain ⟨hook, hmem, ht⟩ := hhere
      rw [count_tokens (h.nodup place) hmem ht.symm]
      exact hlinear.held place hook hmem t ht.symm
    · push Not at hhere
      rw [count_tokens_of_ne hhere, Nat.add_zero]
      refine hlinear.gone t fun other hook hmem ↦ ?_
      by_cases hother : other = place
      · subst hother
        exact hhere hook hmem
      · exact honly other hother hook hmem
  · rintro ⟨hbalances, honce⟩
    refine ⟨fun place hook hmem t ht ↦ ?_, fun t hnobody ↦ ?_, honce⟩
    · rw [hbalances t place (h.onlyIn hmem ht.symm), count_tokens (h.nodup place) hmem ht]
    · have hzero := hbalances t (.slot 0) fun other _ ↦ hnobody other
      rwa [count_tokens_of_ne (hnobody _), Nat.add_zero] at hzero

/-- What is held in a place is out. -/
theorem Balances.covered (h : s.Balances) (hsound : s.Accounts) (place : Place) :
    Custody.Covered Event.gives Event.takes (tokens (s.held place)) s.world.history := by
  intro t
  rcases hsound.onlyIn_or t place with honly | ⟨other, -, honly, hnothere⟩
  · exact (h t place honly).ge
  · have hother := h t other honly
    rw [count_tokens_of_ne hnothere]
    omega

/-- **One place changes**: the others hold what they held. -/
theorem Balances.step {P : Prop} (h : s.Balances) (hsound : s.Accounts)
    (hcarried : Carried P (s.held place) (s'.held place) s.world s'.world) (hP : P)
    (hothers : ∀ other, other ≠ place → tokens (s'.held other) = tokens (s.held other))
    (hids : ∀ other, other ≠ place → ∀ hook ∈ s.held other, ∃ hook' ∈ s'.held other,
      hook'.hookId = hook.hookId) : s'.Balances := by
  intro t q honly
  have hequal := hcarried.eq_iff.mp hP t
  -- the others have no more hooks than they will have
  have hbefore : ∀ other, other ≠ place → other ≠ q → ∀ hook ∈ s.held other,
      hook.hookId ≠ t.hook := by
    intro other hne hne' hook hmem ht
    obtain ⟨hook', hmem', hid⟩ := hids other hne hook hmem
    exact honly other hne' hook' hmem' (hid.trans ht)
  by_cases hq : q = place
  · subst hq
    have hold := h t q fun other hne ↦ hbefore other hne hne
    omega
  · have hafter := count_tokens_of_ne (honly place (Ne.symm hq))
    rw [hothers q hq]
    rcases hsound.onlyIn_or t place with honly' | ⟨other, hne, honly', hnothere⟩
    · -- the hook has left the place
      have hold := h t place honly'
      rw [count_tokens_of_ne (honly' q hq)]
      omega
    · have hzero := count_tokens_of_ne hnothere
      by_cases hother : other = q
      · subst hother
        have hold := h t other honly'
        omega
      · -- nobody has it
        have hold := h t other honly'
        rw [count_tokens_of_ne (hbefore other hne hother)] at hold
        rw [count_tokens_of_ne (honly' q (Ne.symm hother))]
        omega

/-- A step after which the balance is right has lost nothing. -/
theorem Balances.unstep {P : Prop} (h : s.Balances) (h' : s'.Balances) (hsound : s.Accounts)
    (hsound' : s'.Accounts)
    (hcarried : Carried P (s.held place) (s'.held place) s.world s'.world)
    (hothers : ∀ other, other ≠ place → s'.held other = s.held other) : P := by
  refine hcarried.eq_iff.mpr fun t ↦ ?_
  have hsame : (∀ other, other ≠ place → ∀ hook ∈ s.held other, hook.hookId ≠ t.hook) ↔
      s'.OnlyIn t place :=
    forall₂_congr fun other hne ↦ by rw [hothers other hne]
  by_cases honly : s.OnlyIn t place
  · have hold := h t place honly
    have hnew := h' t place (hsame.mp honly)
    omega
  · obtain ⟨other, hne, honly', hnothere⟩ := (hsound.onlyIn_or t place).resolve_left honly
    obtain ⟨other', hne', honly'', hnothere'⟩ :=
      (hsound'.onlyIn_or t place).resolve_left fun hnew ↦ honly (hsame.mpr hnew)
    have hold := h t other honly'
    have hnew := h' t other fun q hq hook hmem ↦ by
      by_cases hplace : q = place
      · subst hplace
        exact hnothere' hook hmem
      · rw [hothers q hplace] at hmem
        exact honly' q hq hook hmem
    rw [hothers other hne] at hnew
    have hzero := count_tokens_of_ne hnothere
    have hzero' := count_tokens_of_ne hnothere'
    omega

/-- A step of one place keeps the process linear if and only if it loses nothing. -/
theorem Linear.update_iff {P : Prop} {hooks' : List Hook} (h : s.Linear) (hsound : s.Accounts)
    (hsound' : s'.Accounts) (hheld : s'.held = Function.update s.held place hooks')
    (hcarried : Carried P (s.held place) hooks' s.world s'.world) : s'.Linear ↔ P := by
  obtain ⟨hbalances, honce⟩ := hsound.linear_iff.mp h
  have hothers : ∀ other, other ≠ place → s'.held other = s.held other := fun other hne ↦ by
    rw [hheld, Function.update_of_ne hne]
  have hhere : s'.held place = hooks' := by rw [hheld, Function.update_self]
  rw [← hhere] at hcarried
  rw [hsound'.linear_iff]
  constructor
  · exact fun hafter ↦ hbalances.unstep hafter.1 hsound hsound' hcarried hothers
  · refine fun hP ↦ ⟨hbalances.step hsound hcarried hP (fun other hne ↦ by rw [hothers other hne])
      fun other hne hook hmem ↦ ⟨hook, ?_, rfl⟩,
      hcarried.once (hbalances.covered hsound place) honce⟩
    rw [hothers other hne]
    exact hmem

end Balances

/-! ## Hooks that wait -/

/-- Who waits for its target holds nothing. -/
def Waiting (s : System ε) : Prop :=
  ∀ place, ∀ hook ∈ s.held place, hook.result.outcome = .pending → hook.preparedState = 0

theorem Waiting.update {s s' : System ε} {place : Place} {hooks' : List Hook} (h : s.Waiting)
    (hheld : s'.held = Function.update s.held place hooks')
    (hhooks : ∀ hook ∈ hooks', hook.result.outcome = .pending → hook.preparedState = 0) :
    s'.Waiting := by
  intro other hook hmem
  rw [hheld] at hmem
  by_cases hother : other = place
  · subst hother
    rw [Function.update_self] at hmem
    exact hhooks hook hmem
  · rw [Function.update_of_ne hother] at hmem
    exact h other hook hmem

/-! ## The calls -/

variable (engines : EngineRef → Engine ε) (stripCode : Ptr → Ptr)

/-- What a call hands to commit and verification callbacks. -/
def handovers (s : System ε) : Op ε → List (Handover ε)
  | .commit slot =>
    match s.plans slot with
    | none => []
    | some plan => commitHandovers engines (s.runtimes plan.runtime) plan s.world
  | .drain runtime => drainPendingHandovers engines runtime (s.runtimes runtime) s.world
  | _ => []

/-- **The law of a call**: prepared values are used linearly. -/
structure UsedLinearly (s : System ε) (op : Op ε) : Prop where
  linear : (s.step engines stripCode op).Linear
  live : ∀ h ∈ s.handovers engines op, h.Live

/-- **The condition**: whenever a wave of a preparation is refused, its engine has stored
nothing. -/
def RefusesClean (s : System ε) : Op ε → Prop
  | .prepare slot => ∀ plan ∈ s.plans slot, ∀ st ∈ preparePasses engines plan s.world,
    st.RefusesClean engines plan.runtime
  | _ => True

instance : ∀ (s : System ε) (op : Op ε), Decidable (s.RefusesClean engines op)
  | s, .prepare slot => inferInstanceAs (Decidable (∀ plan ∈ s.plans slot, _))
  | _, .createPlan .. | _, .defineDomain .. | _, .addHook .. | _, .analyze _ | _, .commit _
  | _, .releasePlan _ | _, .drain _ | _, .releaseRuntime _ | _, .register .. | _, .outside _ =>
    inferInstanceAs (Decidable True)

/-! ## One call -/

section OneCall

variable {engines} {s s' : System ε} {op : Op ε}

theorem Initial.linear (h : s.Initial) : s.Linear := by
  have hnothing : ∀ place, s.held place = [] := by
    rintro (slot | id)
    · show s.planHooks slot = []
      rw [planHooks, h.plans slot]
      rfl
    · exact h.pending id
  constructor
  · intro place hook hmem
    rw [hnothing place] at hmem
    exact absurd hmem List.not_mem_nil
  · intro t _
    rw [h.history]
    rfl
  · rw [h.history]
    trivial

theorem Initial.waiting (h : s.Initial) : s.Waiting := by
  rintro (slot | id) hook hmem
  · replace hmem : hook ∈ s.planHooks slot := hmem
    rw [planHooks, h.plans slot] at hmem
    exact absurd hmem List.not_mem_nil
  · replace hmem : hook ∈ (s.runtimes id).pending := hmem
    rw [h.pending id] at hmem
    exact absurd hmem List.not_mem_nil

/-- A call that loses nothing. -/
theorem Linear.update {place : Place} {hooks' : List Hook} (h : s.Linear) (hsound : s.Accounts)
    (hsound' : s'.Accounts) (hheld : s'.held = Function.update s.held place hooks')
    (hcarried : Carried True (s.held place) hooks' s.world s'.world) : s'.Linear :=
  (h.update_iff hsound hsound' hheld hcarried).mpr trivial

/-- Who is queued waits, and holds nothing. -/
theorem Waiting.queued (h : s.Waiting) (hsound : s.Sound) (id : RuntimeId) :
    ∀ hook ∈ (s.runtimes id).pending, hook.preparedState = 0 := fun hook hmem ↦
  h (.queue id) hook hmem (hsound.queued id hook hmem)

theorem Linear.drafted (h : s.Linear) (hwaiting : s.Waiting) (hsound : s.Sound) {slot : Nat}
    {plan' : Plan} {w' : World ε}
    (hsound' : ((s.setPlan slot (some plan')).setWorld w').Sound)
    (hhooks : plan'.hooks = s.planHooks slot ∨ ∃ hook,
      plan'.hooks = s.planHooks slot ++ [hook] ∧ hook.Blank)
    (hquiet : s.world.Quiet (fun _ ↦ False) w') :
    ((s.setPlan slot (some plan')).setWorld w').Linear ∧
      ((s.setPlan slot (some plan')).setWorld w').Waiting := by
  have hheld := held_setPlan s slot (some plan')
  have hadded : tokens plan'.hooks = tokens (s.planHooks slot) ∧
      ∀ hook ∈ plan'.hooks, hook ∈ s.planHooks slot ∨ hook.preparedState = 0 := by
    rcases hhooks with hsame | ⟨hook, hadded, hblank⟩
    · rw [hsame]
      exact ⟨rfl, fun _ ↦ .inl⟩
    · rw [hadded, tokens_append, tokens_singleton, Hook.token_eq_none.mpr hblank.preparedState]
      refine ⟨List.append_nil _, fun hook' hmem ↦ ?_⟩
      rcases List.mem_append.mp hmem with hmem | hmem
      · exact .inl hmem
      · rw [List.mem_singleton.mp hmem]
        exact .inr hblank.preparedState
  refine ⟨h.update hsound.toAccounts hsound'.toAccounts hheld
    (.silent hquiet.toAdds.nothing hadded.1), hwaiting.update hheld fun hook hmem hpending ↦ ?_⟩
  rcases hadded.2 hook hmem with hmem | hidle
  · exact hwaiting (.slot slot) hook hmem hpending
  · exact hidle

theorem Linear.analyzed (h : s.Linear) (hwaiting : s.Waiting) (hsound : s.Sound) {slot : Nat}
    {plan plan' : Plan} {w' : World ε} {runtime : Runtime}
    (hsound' : ((s.setPlan slot (some plan')).setWorld w').Sound)
    (hplan : s.plans slot = some plan) (hdraft : plan.state = .draft)
    (hhooks : List.Forall₂ (Hook.Analyzes engines runtime) plan.hooks plan'.hooks)
    (hquiet : s.world.Quiet (fun _ ↦ False) w') :
    ((s.setPlan slot (some plan')).setWorld w').Linear ∧
      ((s.setPlan slot (some plan')).setWorld w').Waiting := by
  have hheld := held_setPlan s slot (some plan')
  -- nobody in a draft holds anything
  have hearly := hsound.plans slot plan hplan
  have hbefore : ∀ hook ∈ plan.hooks, hook.preparedState = 0 := fun hook hmem ↦
    (hearly.uncommitted (.inl hdraft) hook hmem).2 (hearly.draft hdraft hook hmem).2
  have hafter : ∀ hook ∈ plan'.hooks, hook.preparedState = 0 := by
    intro hook hmem
    obtain ⟨hook₀, hmem₀, hanalyzes⟩ := Pointwise.mem_right hhooks hmem
    exact hanalyzes.preparedState.trans (hbefore hook₀ hmem₀)
  refine ⟨h.update hsound.toAccounts hsound'.toAccounts hheld
    (.silent hquiet.toAdds.nothing ?_), hwaiting.update hheld fun hook hmem _ ↦ hafter hook hmem⟩
  rw [Sound.held_slot hplan, tokens_eq_nil hbefore]
  exact tokens_eq_nil hafter

/-- **A preparation keeps the law if and only if it refuses clean waves only.** -/
theorem Linear.prepared (h : s.Linear) (hwaiting : s.Waiting) (hsound : s.Sound) {slot : Nat}
    {plan plan' : Plan} {w' : World ε} {status : Status}
    (hplan : s.plans slot = some plan)
    (hcall : preparePlan engines plan s.world = (status, plan', w')) :
    (((s.setPlan slot (some plan')).setWorld w').Linear ↔
        ∀ st ∈ preparePasses engines plan s.world, st.RefusesClean engines plan.runtime) ∧
      ((s.setPlan slot (some plan')).setWorld w').Waiting := by
  have hheld := held_setPlan s slot (some plan')
  have hcarried := preparePlan_carried engines plan s.world
  have hhooks := (preparePlan_spec engines plan s.world).2
  rw [hcall] at hcarried hhooks
  dsimp only at hcarried hhooks
  refine ⟨h.update_iff hsound.toAccounts (hsound.prepared hplan hcall).toAccounts hheld ?_,
    hwaiting.update hheld fun hook hmem hpending ↦ ?_⟩
  · rw [Sound.held_slot hplan]
    exact hcarried
  · by_cases hanalyzed : plan.state = .analyzed
    · obtain ⟨hooks, state, rfl, hprepares, -⟩ := hhooks
      obtain ⟨hook₀, hmem₀, hprepares⟩ := Pointwise.mem_right hprepares hmem
      refine hprepares.idle ((hsound.plans slot plan hplan).uncommitted (.inr hanalyzed) hook₀
        hmem₀).2 ?_
      rw [hpending]
      simp
    · rw [preparePlan_refused hanalyzed] at hcall
      cases hcall
      exact hwaiting (.slot slot) hook (by rwa [Sound.held_slot hplan]) hpending

theorem Linear.committed (h : s.Linear) (hwaiting : s.Waiting) (hsound : s.Sound) {slot : Nat}
    {plan plan' : Plan} {runtime' : Runtime} {w' : World ε} {status : Status}
    (hplan : s.plans slot = some plan)
    (hcall : commitPlan engines (s.runtimes plan.runtime) plan s.world =
      (status, plan', runtime', w')) :
    (((s.setPlan slot (some plan')).setRuntime plan.runtime runtime').setWorld w').Linear ∧
      (((s.setPlan slot (some plan')).setRuntime plan.runtime runtime').setWorld w').Waiting := by
  have hcall' := commitPlan_sound hcall (hsound.nodup_plan hplan) (hsound.accounted_plan hplan)
  have hcarried := commitPlan_carried engines (s.runtimes plan.runtime) plan s.world
  rw [hcall, ← Sound.held_slot hplan] at hcarried
  have hheld := @Sound.held_committed _ s slot plan plan' runtime' hcall'.pending w'
  refine ⟨h.update hsound.toAccounts (hsound.committed hplan hcall).toAccounts hheld hcarried,
    hwaiting.update hheld fun hook hmem hpending ↦ ?_⟩
  obtain ⟨hook₀, hmem₀, hcommits⟩ := Pointwise.mem_right hcall'.commits hmem
  rcases hcommits.outcome with rfl | ⟨-, hfinal⟩
  · exact hwaiting (.slot slot) hook (by rwa [Sound.held_slot hplan]) hpending
  · rw [hpending] at hfinal
    cases hfinal

theorem Linear.released (h : s.Linear) (hwaiting : s.Waiting) (hsound : s.Sound) {slot : Nat}
    {plan : Plan} {runtime' : Runtime} {w' : World ε} (hplan : s.plans slot = some plan)
    (hcall : HookKit.releasePlan engines (s.runtimes plan.runtime) plan s.world = (runtime', w')) :
    (((s.setPlan slot none).setRuntime plan.runtime runtime').setWorld w').Linear ∧
      (((s.setPlan slot none).setRuntime plan.runtime runtime').setWorld w').Waiting := by
  have hsound' := hsound.released hplan hcall
  have hidle : ∀ hook ∈ plan.hooks, hook.result.outcome = .pending → hook.preparedState = 0 :=
    fun hook hmem ↦ hwaiting (.slot slot) hook (by rwa [Sound.held_slot hplan])
  have hcarried := releaseHooks_carried engines hidle (s.runtimes plan.runtime) s.world
  obtain ⟨adopted, capacity, heq, hsub, hpending⟩ :=
    (releaseHooks_spec engines plan.hooks (s.runtimes plan.runtime) s.world).1
  rw [← releasePlan, hcall] at heq hcarried
  dsimp only at heq hcarried
  subst heq
  have hadopted : ∀ hook ∈ adopted, hook.preparedState = 0 := fun hook hmem ↦
    hidle hook (hsub.subset hmem) (hpending hook hmem)
  generalize hnew : ((s.setPlan slot none).setRuntime plan.runtime
    { s.runtimes plan.runtime with
      pending := (s.runtimes plan.runtime).pending ++ adopted
      pendingCapacity := capacity }).setWorld w' = s' at hsound' ⊢
  have hworld : s'.world = w' := by
    rw [← hnew]
    rfl
  have hheld : s'.held = Function.update (Function.update s.held (.slot slot) [])
      (.queue plan.runtime) ((s.runtimes plan.runtime).pending ++ adopted) := by
    rw [← hnew, held_setWorld, held_setRuntime, held_setPlan]
    rfl
  have hslot : s'.held (.slot slot) = [] := by
    rw [hheld, Function.update_of_ne (by simp), Function.update_self]
  -- the queue gets hooks that hold nothing
  have hothers : ∀ other, other ≠ .slot slot → ∃ more : List Hook,
      s'.held other = s.held other ++ more ∧ ∀ hook ∈ more, hook.preparedState = 0 := by
    intro other hne
    by_cases hother : other = .queue plan.runtime
    · subst hother
      rw [hheld, Function.update_self]
      exact ⟨adopted, rfl, hadopted⟩
    · rw [hheld, Function.update_of_ne hother, Function.update_of_ne hne]
      exact ⟨[], (List.append_nil _).symm, by simp⟩
  constructor
  · rw [← Sound.held_slot hplan, ← hslot, ← hworld] at hcarried
    obtain ⟨hbalances, honce⟩ := hsound.linear_iff.mp h
    rw [hsound'.linear_iff]
    refine ⟨hbalances.step hsound.toAccounts hcarried trivial (fun other hne ↦ ?_)
      fun other hne hook hmem ↦ ?_,
      hcarried.once (hbalances.covered hsound.toAccounts (.slot slot)) honce⟩
    · obtain ⟨more, hmore, hidle⟩ := hothers other hne
      rw [hmore, tokens_append, tokens_eq_nil hidle, List.append_nil]
    · obtain ⟨more, hmore, -⟩ := hothers other hne
      exact ⟨hook, hmore ▸ List.mem_append_left more hmem, rfl⟩
  · intro other hook hmem hpending
    by_cases hother : other = .slot slot
    · subst hother
      rw [hslot] at hmem
      exact absurd hmem List.not_mem_nil
    · obtain ⟨more, hmore, hidle⟩ := hothers other hother
      rw [hmore] at hmem
      rcases List.mem_append.mp hmem with hmem | hmem
      · exact hwaiting other hook hmem hpending
      · exact hidle hook hmem

theorem Linear.drained (h : s.Linear) (hwaiting : s.Waiting) (hsound : s.Sound)
    {runtime : RuntimeId} {status : Status} {results : List HookResult} {ledger : Ledger}
    {runtime' : Runtime} {w' : World ε}
    (hcall : drainPending engines runtime (s.runtimes runtime) s.world =
      (status, results, ledger, runtime', w')) :
    ((s.setRuntime runtime runtime').setWorld w').Linear ∧
      ((s.setRuntime runtime runtime').setWorld w').Waiting := by
  have hcarried := drainPending_carried engines runtime (hwaiting.queued hsound runtime)
    s.world
  rw [hcall] at hcarried
  have hheld := held_setRuntime s runtime runtime'
  exact ⟨h.update hsound.toAccounts (hsound.drained hcall).toAccounts hheld hcarried.1,
    hwaiting.update hheld fun hook hmem _ ↦ hcarried.2 hook hmem⟩

theorem Linear.freed (h : s.Linear) (hwaiting : s.Waiting) (hsound : s.Sound)
    {runtime : RuntimeId} {runtime' : Runtime} {w' : World ε}
    (hcall : freePendingHooks engines (s.runtimes runtime) s.world = (runtime', w')) :
    ((s.setRuntime runtime runtime').setWorld w').Linear ∧
      ((s.setRuntime runtime runtime').setWorld w').Waiting := by
  have hsound' := hsound.freed hcall
  have hcarried := freeAll_carried engines (s.runtimes runtime).pending s.world
  rw [freePendingHooks] at hcall
  cases hcall
  have hheld := held_setRuntime s runtime { s.runtimes runtime with
    pending := [], pendingCapacity := 0 }
  exact ⟨h.update hsound.toAccounts hsound'.toAccounts hheld hcarried,
    hwaiting.update hheld (by simp)⟩

/-- **Every call but a preparation keeps the law.** -/
theorem Linear.stepped (h : s.Linear) (hwaiting : s.Waiting) (hsound : s.Sound)
    (hstep : Stepped engines s op s') (hop : ∀ slot, op ≠ .prepare slot) :
    s'.Linear ∧ s'.Waiting := by
  have hsound' := hsound.stepped hstep
  cases hstep with
  | @idle _ w' runtimes' hquiet hpending =>
    have hheld : System.held ⟨w', runtimes', s.plans⟩ =
        Function.update s.held (.slot 0) (s.held (.slot 0)) := by
      rw [Function.update_eq_self]
      funext place
      cases place with
      | slot slot => rfl
      | queue id => exact hpending id
    exact ⟨h.update hsound.toAccounts hsound'.toAccounts hheld
      (.silent hquiet.toAdds.nothing rfl), hwaiting.update hheld (hwaiting (.slot 0))⟩
  | drafted _ _ hhooks hquiet =>
    exact h.drafted hwaiting hsound hsound'
      (hhooks.imp_right fun hadded ↦ hadded.imp fun _ hhook ↦ ⟨hhook.1, hhook.2.1⟩) hquiet
  | analyzed hplan hdraft _ _ hhooks hquiet =>
    exact h.analyzed hwaiting hsound hsound' hplan hdraft hhooks hquiet
  | @prepared slot => exact absurd rfl (hop slot)
  | committed hplan hcall => exact h.committed hwaiting hsound hplan hcall
  | released hplan hcall => exact h.released hwaiting hsound hplan hcall
  | drained hcall => exact h.drained hwaiting hsound hcall
  | freed hcall => exact h.freed hwaiting hsound hcall

/-- **A call keeps the law if and only if it refuses clean waves only.** -/
theorem Linear.step (h : s.Linear) (hwaiting : s.Waiting) (hsound : s.Sound) (op : Op ε) :
    ((s.step engines stripCode op).Linear ↔ s.RefusesClean engines op) ∧
      (s.step engines stripCode op).Waiting := by
  have hkept : ∀ op, (∀ slot, op ≠ .prepare slot) → s.RefusesClean engines op →
      ((s.step engines stripCode op).Linear ↔ s.RefusesClean engines op) ∧
        (s.step engines stripCode op).Waiting := by
    intro op hop hclean
    have hboth := h.stepped hwaiting hsound (step_stepped engines stripCode s op) hop
    exact ⟨iff_of_true hboth.1 hclean, hboth.2⟩
  cases op with
  | prepare slot =>
    rw [System.step, onPlan, RefusesClean]
    cases hplan : s.plans slot with
    | none => exact ⟨iff_of_true h (by simp), hwaiting⟩
    | some plan =>
      dsimp only
      obtain ⟨hlinear, hafter⟩ := h.prepared hwaiting hsound hplan
        (preparePlan engines plan s.world).eta
      refine ⟨hlinear.trans (by simp), hafter⟩
  | _ => exact hkept _ (by simp) trivial

/-- What a call hands over is out. -/
theorem Linear.handovers_live (h : s.Linear) (hwaiting : s.Waiting) (hsound : s.Sound) (op : Op ε) :
    ∀ handover ∈ s.handovers engines op, handover.Live := by
  have hbalances := (hsound.linear_iff.mp h).1
  cases op with
  | commit slot =>
    rw [handovers]
    cases hplan : s.plans slot with
    | none => simp
    | some plan =>
      refine commitHandovers_live engines ?_
      have hcovered := hbalances.covered hsound.toAccounts (.slot slot)
      rwa [Sound.held_slot hplan] at hcovered
  | drain runtime =>
    have hidle := hwaiting.queued hsound runtime
    refine drainPendingHandovers_live engines runtime hidle ?_
    have hcovered := hbalances.covered hsound.toAccounts (.queue runtime)
    rwa [show s.held (.queue runtime) = (s.runtimes runtime).pending from rfl,
      tokens_eq_nil hidle] at hcovered
  | _ => simp [handovers]

end OneCall

/-! ## Runs -/

/-- **Prepared values are used linearly** in exactly those runs whose grouped callbacks keep nothing
for the waves that they refuse. -/
theorem usedLinearly_iff {s : System ε} (hstart : s.Initial) (ops : List (Op ε)) :
    Meets engines stripCode (UsedLinearly engines stripCode) s ops ↔
      Meets engines stripCode (RefusesClean engines) s ops := by
  have hstarted : s.Linear ∧ s.Waiting ∧ s.Sound := ⟨hstart.linear, hstart.waiting, hstart.sound⟩
  clear hstart
  induction ops generalizing s with
  | nil => exact Iff.rfl
  | cons op rest ih =>
    obtain ⟨hlinear, hwaiting, hsound⟩ := hstarted
    obtain ⟨hkept, hwaiting'⟩ := @Linear.step _ engines stripCode s hlinear hwaiting hsound op
    have hsound' := hsound.stepped (step_stepped engines stripCode s op)
    have hlive := @Linear.handovers_live _ engines s hlinear hwaiting hsound op
    constructor
    · rintro ⟨hused, hrest⟩
      exact ⟨hkept.mp hused.linear, (ih ⟨hused.linear, hwaiting', hsound'⟩).mp hrest⟩
    · rintro ⟨hclean, hrest⟩
      have hlinear' := hkept.mpr hclean
      exact ⟨⟨hlinear', hlive⟩, (ih ⟨hlinear', hwaiting', hsound'⟩).mpr hrest⟩

end System

/-- An engine that prepares waves and stores a value for every member, whatever it says of the
wave. -/
def Engine.storing (accepted : Bool) : Engine Unit :=
  { Engine.scripted (fun _ _ ↦ .ok) fun _ _ ↦ .complete with
    describe := { (Engine.scripted (ε := Unit) (fun _ _ ↦ .ok) fun _ _ ↦ .complete).describe with
      nativeGrouping := true }
    prepareGroupCtx := some fun _ env ↦ (⟨accepted, fun _ ↦ ⟨.ok, 1, .zero⟩⟩, env) }

/-- Two hooks, prepared as a wave and committed one by one; the plan is released in the end. -/
def Op.storeTwo : List (Op Unit) :=
  [.createPlan 0 0, .addHook 0 (.atAddress "first" 0x1000 1),
    .addHook 0 (.atAddress "second" 0x2000 2), .analyze 0, .prepare 0, .commit 0, .releasePlan 0]

theorem System.usedLinearly_storeTwo :
    Meets (fun _ ↦ .storing true) id (UsedLinearly (fun _ ↦ .storing true) id)
      (System.fresh () fun _ ↦ 0) Op.storeTwo :=
  (System.usedLinearly_iff (fun _ ↦ .storing true) id (System.fresh_initial () fun _ ↦ 0)
    Op.storeTwo).mpr (by decide +kernel)

/-- A wave that is refused with its values in it. -/
example : ¬System.Meets (fun _ ↦ .storing false) id (System.RefusesClean fun _ ↦ .storing false)
    (System.fresh () fun _ ↦ 0) Op.storeTwo := by decide +kernel

end HookKit
