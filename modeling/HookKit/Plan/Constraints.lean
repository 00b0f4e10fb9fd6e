import HookKit.Plan.Account
import HookKit.Plan.Attempts
import HookKit.Plan.Routing

/-!
# What a request forbids

A request forbids effects by its constraints and by its continuation policy.  The router asks for
them once, by comparing masks; what engines show later is compared with what they declared.

* `HookSpec.forbids` — the effects a request forbids, in each of the two phases.
* `Capabilities.Unseen` — the two ways to declare a forbidden effect that the masks do not show.
* `Hook.Bound` — what the checks leave of a hook, at every point of a run.
* `System.enforced_run` — where nothing is unseen, what is forbidden does not happen.
-/

set_option autoImplicit false

namespace HookKit

variable {ε : Type} {engines : EngineRef → Engine ε}

/-! ## Effects and requests -/

/-- The two phases in which an engine may have effects. -/
inductive Phase where
  | prepare | commit
deriving DecidableEq, Repr

/-- Whether a request forbids the effect at a position of the mask.  An effect without a constraint
of its own is not forbidden. -/
def HookSpec.forbids (spec : HookSpec) : Phase → Nat → Bool
  | _, 0 => spec.constraints.getLsbD 0    -- target text mutation
  | _, 1 => spec.constraints.getLsbD 1    -- import mutation
  | _, 2 => spec.constraints.getLsbD 2    -- Objective-C metadata mutation
  | _, 3 => spec.constraints.getLsbD 3    -- Swift vtable mutation
  | _, 5 =>                               -- executable allocation
    spec.constraints.getLsbD 4 || spec.continuationPolicy ≠ .any
  | _, 6 =>                               -- static continuation use
    spec.constraints.getLsbD 5 || spec.continuationPolicy = .forbidden
  | _, 7 => spec.constraints.getLsbD 7    -- provider activation
  | _, 8 => spec.constraints.getLsbD 8    -- provider image load
  | _, 10 => spec.constraints.getLsbD 9   -- callback registration
  | _, 11 => spec.constraints.getLsbD 11  -- thread creation
  | _, 12 => spec.constraints.getLsbD 6   -- private symbol scan
  | .prepare, 63 => spec.constraints.getLsbD 12  -- unknown preparation effects
  | .commit, 63 => spec.constraints.getLsbD 13   -- unknown commit effects
  | _, _ => false

/-- None of the effects is forbidden in the phase. -/
def HookSpec.Allows (spec : HookSpec) (phase : Phase) (effects : Mask) : Prop :=
  ∀ bit < 64, effects.getLsbD bit = true → spec.forbids phase bit = false

instance (spec : HookSpec) (phase : Phase) (effects : Mask) :
    Decidable (spec.Allows phase effects) :=
  inferInstanceAs (Decidable (∀ bit < 64, _))

/-- The effects an engine declares for a phase. -/
def Capabilities.effects (caps : Capabilities) : Phase → Mask
  | .prepare => caps.prepareEffects
  | .commit => caps.commitEffects

/-- The effects an engine has shown in a phase. -/
def HookResult.observed (result : HookResult) : Phase → Mask
  | .prepare => result.observedPrepareEffects
  | .commit => result.observedCommitEffects

/-- The engine declares nothing that the request forbids. -/
def Capabilities.Respects (caps : Capabilities) (spec : HookSpec) : Prop :=
  ∀ phase, spec.Allows phase (caps.effects phase)

/-- Neither the engine's declarations nor what it has shown is forbidden. -/
structure Hook.Obeys (engines : EngineRef → Engine ε) (hook : Hook) : Prop where
  declared : (hook.caps engines).Respects hook.spec
  observed : ∀ phase, hook.spec.Allows phase (hook.result.observed phase)

/-- The engine declares something forbidden that the masks do not show: unknown preparation effects,
for which the mask has the bit of the unknown commit effects, or continuation machinery, where only
the policy forbids it altogether. -/
def Capabilities.Unseen (caps : Capabilities) (spec : HookSpec) : Prop :=
  spec.constraints.getLsbD 12 = true ∧ caps.prepareEffects.getLsbD 63 = true ∨
    spec.continuationPolicy = .forbidden ∧
      ∃ phase, (caps.effects phase).getLsbD 5 = true ∨ (caps.effects phase).getLsbD 6 = true

theorem HookSpec.Allows.subset {spec : HookSpec} {phase : Phase} {a b : Mask}
    (h : spec.Allows phase b) (hab : a &&& ~~~b = 0) : spec.Allows phase a := by
  intro bit hbit ha
  refine h bit hbit ?_
  rw [BitVec.eq_of_getLsbD_eq_iff] at hab
  have hsame := hab bit hbit
  simp only [BitVec.getLsbD_and, BitVec.getLsbD_not, hbit, decide_true, Bool.true_and, ha] at hsame
  simpa using hsame

/-! ## The masks -/

theorem effectiveConstraints_getLsbD (spec : HookSpec) (i : Nat) :
    (effectiveConstraints spec.constraints spec.continuationPolicy).getLsbD i =
      (spec.constraints.getLsbD i ||
        decide (i = 4 ∧ spec.continuationPolicy = .noDynamicExecutableMemory)) := by
  rw [effectiveConstraints, forbidDynamicExecutableMemory]
  split
  · rename_i hpolicy
    rw [BitVec.getLsbD_or, hpolicy, BitVec.getLsbD_shiftLeft]
    congr 1
    by_cases hi : i = 4
    · subst hi
      rfl
    · simp only [hi, false_and, decide_false, BitVec.getLsbD_one]
      grind
  · rename_i hpolicy
    simp [hpolicy]

/-- **What the masks show.**  The effects that the router sees as forbidden are the forbidden ones,
up to those it does not see. -/
theorem Capabilities.Serves.respects_iff {caps : Capabilities} {spec : HookSpec}
    (h : caps.Serves spec) : caps.Respects spec ↔ ¬caps.Unseen spec := by
  obtain ⟨-, -, -, hprepare, hcommit⟩ := eligibleMinimalFull_iff.1 h
  have htolerates : ∀ phase, Tolerates
      (effectiveConstraints spec.constraints spec.continuationPolicy) (caps.effects phase) := by
    rintro (_ | _)
    · exact hprepare
    · exact hcommit
  have hseen : ∀ phase bit forbid, bit < 64 → (caps.effects phase).getLsbD bit = true →
      effectForbidBit bit = some forbid → spec.constraints.getLsbD forbid = false ∧
        ¬(forbid = 4 ∧ spec.continuationPolicy = .noDynamicExecutableMemory) := by
    intro phase bit forbid hbit heffect hforbid
    have hbits := htolerates phase bit forbid hbit heffect hforbid
    rw [effectiveConstraints_getLsbD, Bool.or_eq_false_iff, decide_eq_false_iff_not] at hbits
    exact hbits
  constructor
  · rintro hrespects (⟨hconstraint, heffect⟩ | ⟨hpolicy, phase, heffect | heffect⟩)
    · have := hrespects .prepare 63 (by decide) heffect
      rw [HookSpec.forbids, hconstraint] at this
      cases this
    · have := hrespects phase 5 (by decide) heffect
      rw [HookSpec.forbids, hpolicy, Bool.or_eq_false_iff] at this
      cases this.2
    · have := hrespects phase 6 (by decide) heffect
      rw [HookSpec.forbids, hpolicy, Bool.or_eq_false_iff] at this
      cases this.2
  · intro hunseen phase bit hbit heffect
    rw [Unseen, not_or, not_and, not_and] at hunseen
    obtain ⟨hunknown, hmachinery⟩ := hunseen
    have hforbid := fun forbid ↦ hseen phase bit forbid hbit heffect
    unfold HookSpec.forbids
    split
    all_goals first | rfl | exact (hforbid _ rfl).1 | skip
    · -- executable allocation: the mask has the bit of the middle policy
      obtain ⟨hconstraint, hpolicy⟩ := hforbid 4 rfl
      rw [hconstraint, Bool.false_or, decide_eq_false_iff_not, not_not]
      cases hkind : spec.continuationPolicy with
      | any => rfl
      | noDynamicExecutableMemory => exact absurd ⟨rfl, hkind⟩ hpolicy
      | forbidden => exact absurd ⟨phase, .inl heffect⟩ (hmachinery hkind)
    · obtain ⟨hconstraint, -⟩ := hforbid 5 rfl
      rw [hconstraint, Bool.false_or, decide_eq_false_iff_not]
      exact fun hpolicy ↦ hmachinery hpolicy ⟨phase, .inr heffect⟩
    · exact Bool.eq_false_iff.2 fun hconstraint ↦ hunknown hconstraint heffect

/-! ## One hook -/

/-- The outcomes of a hook that has a route. -/
def Outcome.isRouted : Outcome → Bool
  | .analyzed | .prepared | .pending | .active => true
  | _ => false

/-- Preparation gives nobody a route. -/
theorem Outcome.preparesTo.isRouted {o o' : Outcome} (h : o.preparesTo o')
    (hrouted : o'.isRouted = true) : o.isRouted = true := by
  cases o with
  | analyzed | prepared | pending | active => rfl
  | _ => exact (congrArg Outcome.isRouted h.symm).trans hrouted

/-- A hook with a route obeys what it asked for: its engine respects the request, and what the
engine has shown so far it had declared. -/
structure Hook.Bound (engines : EngineRef → Engine ε) (h : Hook) : Prop where
  respects : h.result.outcome.isRouted = true → (h.caps engines).Respects h.spec
  prepared : h.result.outcome = .prepared ∨ h.result.outcome = .active →
    h.result.observedPrepareEffects &&& ~~~(h.caps engines).prepareEffects = 0
  committed : h.result.outcome.isRouted = true → h.result.outcome ≠ .pending →
    h.result.observedCommitEffects &&& ~~~(h.caps engines).commitEffects = 0

namespace Hook.Bound

variable {h h' : Hook}

theorem obeys (hb : h.Bound engines) (ho : h.result.outcome = .prepared ∨
    h.result.outcome = .active) : h.Obeys engines := by
  have hrouted : h.result.outcome.isRouted = true := by rcases ho with ho | ho <;> rw [ho] <;> rfl
  have hpending : h.result.outcome ≠ .pending := by rcases ho
    with ho | ho <;> rw [ho] <;> exact nofun
  have hrespects := hb.respects hrouted
  refine ⟨hrespects, ?_⟩
  rintro (_ | _)
  · exact (hrespects .prepare).subset (hb.prepared ho)
  · exact (hrespects .commit).subset (hb.committed hrouted hpending)

/-- Nothing is asked of a hook without a route. -/
theorem of_unrouted (h : h'.result.outcome.isRouted = false) : h'.Bound engines := by
  refine ⟨fun h' ↦ ?_, fun ho ↦ ?_, fun h' ↦ ?_⟩
  · rw [h] at h'
    cases h'
  · rcases ho with ho | ho <;> rw [ho] at h <;> cases h
  · rw [h] at h'
    cases h'

theorem of_pending (ho : h'.result.outcome = .pending)
    (hrespects : (h'.caps engines).Respects h'.spec) : h'.Bound engines := by
  refine ⟨fun _ ↦ hrespects, fun hne ↦ ?_, fun _ hne ↦ absurd ho hne⟩
  rw [ho] at hne
  rcases hne with hne | hne <;> cases hne

theorem blank (h : h'.Blank) : h'.Bound engines := of_unrouted (by rw [h.outcome]; rfl)

/-- Analysis, where every engine that the masks let through respects the request. -/
theorem analyzes {runtime : Runtime} (ha : h.Analyzes engines runtime h')
    (hseen : ∀ r ∈ runtime.engines, (engines r.engine).describe.Serves h.spec →
      ¬(engines r.engine).describe.Unseen h.spec) : h'.Bound engines := by
  rcases ha.routed with ⟨houtcome, -⟩ | ⟨houtcome, r, hr, hmatched, hserves⟩
  · exact of_unrouted (by rw [houtcome]; rfl)
  · have hcaps : h'.caps engines = (engines r.engine).describe := by rw [caps, engine, hmatched]
    refine ⟨fun _ ↦ ?_, fun ho ↦ ?_, fun _ _ ↦ ?_⟩
    · rw [hcaps, ha.spec]
      exact hserves.respects_iff.2 (hseen r hr hserves)
    · rw [houtcome] at ho
      rcases ho with ho | ho <;> cases ho
    · rw [ha.commitEffects]
      exact BitVec.zero_and

theorem prepares (hb : h.Bound engines) (hactive : h.result.outcome ≠ .active)
    (hp : h.Prepares engines h') : h'.Bound engines := by
  have hcaps : h'.caps engines = h.caps engines := hp.toSame.caps
  refine ⟨fun hr ↦ ?_, fun ho ↦ ?_, fun hr hne ↦ ?_⟩
  · rw [hcaps, hp.spec]
    exact hb.respects (hp.outcome.isRouted hr)
  · rcases ho with ho | ho
    · exact hp.declared (fun hprepared ↦ hb.prepared (.inl hprepared)) ho
    · exact absurd ho (preparesTo_active hp.outcome hactive)
  · rw [hcaps, hp.commitEffects]
    refine hb.committed (hp.outcome.isRouted hr) fun ho ↦ hne ?_
    have houtcome := hp.outcome
    rw [ho] at houtcome
    exact houtcome

/-- A commit, where the result of an active hook shows what it showed before and what its engine
declared. -/
theorem commits (hb : h.Bound engines) (hc : h.Commits h')
    (hshown : h'.result.outcome = .active → h' = h ∨
      h'.result.observedPrepareEffects = h.result.observedPrepareEffects ∧
        (h.caps engines).Declares h'.result.observedCommitEffects) : h'.Bound engines := by
  rcases hc.outcome with rfl | ⟨hprepared, hfinal⟩
  · exact hb
  have hcaps : h'.caps engines = h.caps engines := hc.toSame.caps
  by_cases hactive : h'.result.outcome = .active
  · rcases hshown hactive with rfl | ⟨hprepare, hcommit⟩
    · exact hb
    refine ⟨fun _ ↦ ?_, fun _ ↦ ?_, fun _ _ ↦ ?_⟩
    · rw [hcaps, hc.spec]
      exact hb.respects (by rw [hprepared]; rfl)
    · rw [hcaps, hprepare]
      exact hb.prepared (.inl hprepared)
    · rw [hcaps]
      exact hcommit
  · refine of_unrouted ?_
    cases ho : h'.result.outcome <;> rw [ho] at hfinal hactive <;>
      first | rfl | exact absurd rfl hactive | cases hfinal

end Hook.Bound

/-! ## What results show -/

section Shows

variable (engines)

theorem commitOneHook_shows {path : Path} {runtime : RuntimeId} {planId ownerId : Id}
    {continuation : Option ContinuationInfo} {hook : Hook} {out : HookResult} {ledger : Ledger}
    {w : World ε}
    (hactive : (commitOneHook engines path runtime planId ownerId continuation hook out
      ledger w).1.result.outcome = .active) :
    let r := (commitOneHook engines path runtime planId ownerId continuation hook out ledger
      w).1.result
    r.observedPrepareEffects = out.observedPrepareEffects ∧
      (hook.caps engines).Declares r.observedCommitEffects := by
  dsimp only
  rcases commitOneHook_rollsUp engines path runtime planId ownerId continuation
    hook out ledger w with
    ⟨hconflict, -, -⟩ | ⟨mutation, out', ⟨_, _, _, _, rfl⟩, -, -, hrolled⟩
  · rw [hconflict] at hactive
    cases hactive
  · obtain ⟨-, htrusted, -⟩ := hrolled.active hactive
    refine ⟨hrolled.prepareEffects, ?_⟩
    rw [hrolled.commitEffects]
    exact htrusted.declared

variable {engines}

theorem SettledMember.shows {plan : CommitPlan} {count n : Nat} {st : CommitState ε}
    {hook hook' : Hook} {m m' : Member} {l : Ledger} {w : World ε}
    (h : SettledMember engines plan count st n hook m m' l w hook')
    (hactive : hook'.result.outcome = .active) :
    hook'.result.observedPrepareEffects = hook.result.observedPrepareEffects ∧
      (hook.caps engines).Declares hook'.result.observedCommitEffects := by
  obtain ⟨ledger', hrolled⟩ := h.rollsUp.result
  obtain ⟨-, htrusted, -⟩ := hrolled.active hactive
  obtain ⟨mid, hrecords, hstores⟩ := h.recorded
  constructor
  · obtain ⟨_, _, _, _, hout⟩ := h.out.trans hrecords.out
    rw [hrolled.prepareEffects, hstores.out, hout]
  · rw [hrolled.commitEffects, ← h.storedHook]
    exact htrusted.declared

/-- **A commit**: an active hook was active before, or shows what its engine declared. -/
theorem commitPlan_shows {runtime : Runtime} {plan : Plan} {w : World ε} {i : Nat}
    {hook hook' : Hook} (hget : plan.hooks[i]? = some hook)
    (hget' : (commitPlan engines runtime plan w).2.1.hooks[i]? = some hook')
    (hactive : hook'.result.outcome = .active) : hook' = hook ∨
      hook'.result.observedPrepareEffects = hook.result.observedPrepareEffects ∧
        (hook.caps engines).Declares hook'.result.observedCommitEffects := by
  rcases commitPlan_cases engines runtime plan w with
    ⟨_, _, -, heq, -⟩ | ⟨order, w₁, status, plan', runtime', w', heq, hran⟩
  · rw [heq] at hget'
    exact .inl (Option.some.inj (hget'.symm.trans hget))
  · obtain ⟨state, hplan', -⟩ := hran.planAfter
    rw [heq, hplan'] at hget'
    have hvalid : ∀ i ∈ order, i < plan.hooks.length := fun i hi ↦ (hran.prepared i hi).lt
    rcases @commitLoop_hookPass _ engines (plan.toCommit runtime order) _ _ hvalid hran.nodup _ _ _
      hget hget' with rfl | ⟨st, -, -, hpass⟩
    · exact .inl rfl
    · cases hpass with
      | kept => exact .inl rfl
      | unasked _ houtcome =>
        dsimp only at hactive
        rw [hactive] at houtcome
        rcases houtcome with h | h <;> cases h
      | single _ hcommitted =>
        have hshows := @commitOneHook_shows _ engines .single (plan.toCommit runtime order).runtime
          (plan.toCommit runtime order).planId (plan.toCommit runtime order).ownerId
          hook.preparedContinuation hook hook.result st.ledger st.world
        rw [hcommitted] at hshows
        exact .inr (hshows hactive)
      | member _ _ hsettled => exact .inr (hsettled.shows hactive)

theorem drainPrepare_declared {runtime : RuntimeId} {hook : Hook} {w : World ε}
    (h : (drainPrepare engines runtime hook w).1 ≠ .failed) :
    (drainPrepare engines runtime hook w).2.2.1.observedPrepareEffects &&&
      ~~~(hook.caps engines).prepareEffects = 0 := by
  rw [drainPrepare] at h ⊢
  have htouched := dispatchPrepare_touched engines .drain runtime hook w
  generalize dispatchPrepare engines .drain runtime hook w = dispatched at h htouched ⊢
  obtain ⟨result, hook₁, diag, w₁⟩ := dispatched
  dsimp only at h htouched ⊢
  have hdeclared := validatePrepareEffects_declared engines h
  rw [htouched.caps] at hdeclared
  split
  · exact hdeclared
  · exact hdeclared

/-- **A drain**: a hook that becomes active shows what its engine declared. -/
theorem drainOne_shows {runtime : RuntimeId} {ownerId : Id} {hook : Hook} {ledger : Ledger}
    {w : World ε}
    (hactive : (drainOne engines runtime ownerId hook ledger w).1.result.outcome = .active) :
    ∀ phase, (drainOne engines runtime ownerId hook ledger w).1.result.observed phase &&&
      ~~~(hook.caps engines).effects phase = 0 := by
  have htouched := (drainPrepare_spec engines runtime hook w).1
  have hdeclared := @drainPrepare_declared _ engines runtime hook w
  rw [drainOne] at hactive ⊢
  generalize drainPrepare engines runtime hook w = prepared at hactive htouched hdeclared ⊢
  obtain ⟨result, hook₁, out, w₁⟩ := prepared
  dsimp only at htouched hdeclared
  cases result with
  | notApplicable => cases hactive
  | failed => cases hactive
  | ok =>
    obtain ⟨hprepare, hcommit⟩ := commitOneHook_shows engines hactive
    rw [htouched.caps] at hcommit
    rintro (_ | _)
    · exact (congrArg (· &&& _) hprepare).trans (hdeclared (by simp))
    · exact hcommit

end Shows

/-! ## Runs -/

namespace System

variable {s : System ε}

/-- Where a draft is analyzed, the masks show all that the engines they let through declare. -/
def NothingUnseen (engines : EngineRef → Engine ε) (s : System ε) : Op ε → Prop
  | .analyze slot => ∀ plan, s.plans slot = some plan → plan.state = .draft →
    ∀ hook ∈ plan.hooks, ∀ r ∈ (s.runtimes plan.runtime).engines,
      (engines r.engine).describe.Serves hook.spec → ¬(engines r.engine).describe.Unseen hook.spec
  | _ => True

/-- What a call leaves has been enforced. -/
structure Enforced (engines : EngineRef → Engine ε) (stripCode : Ptr → Ptr) (s : System ε)
    (op : Op ε) : Prop where
  /-- Prepared and active hooks obey what was asked for them. -/
  held : ∀ place, ∀ hook ∈ (s.step engines stripCode op).held place,
    hook.result.outcome = .prepared ∨ hook.result.outcome = .active → hook.Obeys engines
  /-- So do the hooks that a drain activates and frees, whether or not they are reported. -/
  drained : ∀ runtime, op = .drain runtime → ∀ (i : Nat) (drained : Drained),
    (drainLoop engines runtime (s.runtimes runtime).ownerId (s.runtimes runtime).pending .empty
      s.world.alloc.2.alloc.2).1[i]? = some drained → drained.result.outcome = .active →
    ∃ hook, (s.runtimes runtime).pending[i]? = some hook ∧
      Hook.Obeys engines { hook with result := drained.result }
  /-- A request that every registered engine would violate gets no route. -/
  unserved : ∀ slot plan plan', op = .analyze slot → s.plans slot = some plan →
    plan.state = .draft → (s.step engines stripCode op).plans slot = some plan' →
    plan'.state = .analyzed → ∀ hook ∈ plan'.hooks, (∀ r ∈ (s.runtimes plan.runtime).engines,
      ¬(engines r.engine).describe.Respects hook.spec) → hook.result.outcome = .noRoute
  /-- And once the plan is analyzed that stays so. -/
  settled : ∀ slot plan plan', s.plans slot = some plan → plan.state ≠ .draft →
    (s.step engines stripCode op).plans slot = some plan' → ∀ (i : Nat) (hook hook' : Hook),
    plan.hooks[i]? = some hook → plan'.hooks[i]? = some hook' →
    hook.result.outcome = .noRoute → hook'.result.outcome = .noRoute

/-- Every hook obeys what was asked for it, as far as it has got. -/
def Bound (engines : EngineRef → Engine ε) (s : System ε) : Prop :=
  ∀ place, ∀ hook ∈ s.held place, hook.Bound engines

namespace Bound

theorem update (h : s.Bound engines) (place : Place) {hooks : List Hook}
    (hhooks : ∀ hook ∈ hooks, hook.Bound engines) :
    ∀ place', ∀ hook ∈ Function.update s.held place hooks place', hook.Bound engines := by
  intro place' hook hmem
  by_cases hplace : place' = place
  · subst hplace
    rw [Function.update_self] at hmem
    exact hhooks hook hmem
  · rw [Function.update_of_ne hplace] at hmem
    exact h place' hook hmem

theorem setPlan (h : s.Bound engines) (slot : Nat) {plan : Plan}
    (hhooks : ∀ hook ∈ plan.hooks, hook.Bound engines) :
    (s.setPlan slot (some plan)).Bound engines := by
  intro place hook hmem
  rw [held_setPlan] at hmem
  exact h.update (.slot slot) hhooks place hook hmem

theorem clearPlan (h : s.Bound engines) (slot : Nat) : (s.setPlan slot none).Bound engines := by
  intro place hook hmem
  rw [held_setPlan] at hmem
  exact h.update (.slot slot) (fun _ hmem ↦ absurd hmem List.not_mem_nil) place hook hmem

theorem setRuntime (h : s.Bound engines) (id : RuntimeId) {runtime : Runtime}
    (hhooks : ∀ hook ∈ runtime.pending, hook.Bound engines) :
    (s.setRuntime id runtime).Bound engines := by
  intro place hook hmem
  rw [held_setRuntime] at hmem
  exact h.update (.queue id) hhooks place hook hmem

theorem setWorld (h : s.Bound engines) (w : World ε) : (s.setWorld w).Bound engines := h

theorem plan (h : s.Bound engines) {slot : Nat} {plan : Plan} (hplan : s.plans slot = some plan) :
    ∀ hook ∈ plan.hooks, hook.Bound engines := by
  intro hook hmem
  exact h (.slot slot) hook (by rw [held, planHooks_some hplan]; exact hmem)

theorem prepared (h : s.Bound engines) (hs : s.Sound) {slot : Nat} {plan plan' : Plan}
    {w' : World ε} {status : Status} (hplan : s.plans slot = some plan)
    (hcall : preparePlan engines plan s.world = (status, plan', w')) :
    ∀ hook ∈ plan'.hooks, hook.Bound engines := by
  by_cases hanalyzed : plan.state = .analyzed
  · obtain ⟨-, hooks, state, heq, hprepares, -⟩ := preparePlan_spec engines plan s.world
    rw [hcall] at heq
    dsimp only at heq
    subst heq
    intro hook hmem
    obtain ⟨before, hbefore, hp⟩ := Pointwise.mem_right hprepares hmem
    exact (h.plan hplan before hbefore).prepares
      ((hs.plans slot plan hplan).uncommitted (.inr hanalyzed) before hbefore).1 hp
  · rw [preparePlan_refused hanalyzed] at hcall
    cases hcall
    exact h.plan hplan

theorem committed (h : s.Bound engines) (hs : s.Sound) {slot : Nat} {plan plan' : Plan}
    {runtime' : Runtime} {w' : World ε} {status : Status} (hplan : s.plans slot = some plan)
    (hcall : commitPlan engines (s.runtimes plan.runtime) plan s.world =
      (status, plan', runtime', w')) : ∀ hook ∈ plan'.hooks, hook.Bound engines := by
  have hsound := commitPlan_sound hcall (hs.nodup_plan hplan) (hs.accounted_plan hplan)
  intro hook hmem
  obtain ⟨i, hi⟩ := List.getElem?_of_mem hmem
  obtain ⟨before, hbefore, hc⟩ := Pointwise.getElem?_right hsound.commits hi
  refine (h.plan hplan before (List.mem_of_getElem? hbefore)).commits hc fun hactive ↦ ?_
  have hshows := @commitPlan_shows _ engines (s.runtimes plan.runtime) plan s.world i before hook
  rw [hcall] at hshows
  exact hshows hbefore hi hactive

/-- What stays in the queue keeps its route. -/
theorem drained (h : s.Bound engines) (hs : s.Sound) {runtime : RuntimeId} {w : World ε} :
    ∀ hook ∈ (drainLoop engines runtime (s.runtimes runtime).ownerId (s.runtimes runtime).pending
      .empty w).1.filterMap Drained.kept, hook.Bound engines := by
  intro hook hmem
  obtain ⟨before, hsub, hkept⟩ := drainLoop_kept engines runtime (s.runtimes runtime).ownerId
    (s.runtimes runtime).pending .empty w
  obtain ⟨old, hold, hsame, -, hpending⟩ := Pointwise.mem_right hkept hmem
  refine .of_pending hpending ?_
  rw [hsame.caps, hsame.spec]
  have hold := hsub.subset hold
  exact (h (.queue runtime) old hold).respects (by rw [hs.queued runtime old hold]; rfl)

/-- **Every call keeps the bounds**, where nothing is unseen. -/
theorem stepped (h : s.Bound engines) (hs : s.Sound) {op : Op ε}
    (hseen : s.NothingUnseen engines op) {s' : System ε} (hstep : Stepped engines s op s') :
    s'.Bound engines := by
  cases hstep with
  | @idle _ w' runtimes' hquiet hpending =>
    rintro (slot | id) hook hmem
    · exact h (.slot slot) hook hmem
    · refine h (.queue id) hook ?_
      rw [held, ← hpending id]
      exact hmem
  | @drafted _ slot plan' _ _ _ hhooks _ =>
    refine (h.setPlan slot fun hook hmem ↦ ?_).setWorld _
    rcases hhooks with hsame | ⟨added, hadded, hblank, -⟩
    · rw [hsame] at hmem
      exact h (.slot slot) hook hmem
    · rw [hadded] at hmem
      rcases List.mem_append.mp hmem with hmem | hmem
      · exact h (.slot slot) hook hmem
      · rw [List.mem_singleton.mp hmem]
        exact .blank hblank
  | @analyzed slot plan plan' _ hplan hdraft _ _ hhooks _ =>
    refine (h.setPlan slot fun hook hmem ↦ ?_).setWorld _
    obtain ⟨before, hbefore, ha⟩ := Pointwise.mem_right hhooks hmem
    exact .analyzes ha (hseen plan hplan hdraft before hbefore)
  | @prepared slot plan plan' _ _ hplan hcall =>
    exact (h.setPlan slot (h.prepared hs hplan hcall)).setWorld _
  | @committed slot plan plan' runtime' _ _ hplan hcall =>
    refine ((h.setPlan slot (h.committed hs hplan hcall)).setRuntime _ ?_).setWorld _
    rw [(commitPlan_sound hcall (hs.nodup_plan hplan) (hs.accounted_plan hplan)).pending]
    exact h (.queue plan.runtime)
  | @released slot plan runtime' _ hplan hcall =>
    obtain ⟨⟨adopted, capacity, heq, hsub, -⟩, -⟩ :=
      releaseHooks_spec engines plan.hooks (s.runtimes plan.runtime) s.world
    rw [← releasePlan, hcall] at heq
    dsimp only at heq
    subst heq
    refine ((h.clearPlan slot).setRuntime _ fun hook hmem ↦ ?_).setWorld _
    rcases List.mem_append.mp hmem with hmem | hmem
    · exact h (.queue plan.runtime) hook hmem
    · exact h.plan hplan hook (hsub.subset hmem)
  | @drained runtime _ _ _ runtime' _ hcall =>
    refine (h.setRuntime runtime ?_).setWorld _
    rcases drainPending_cases engines runtime (s.runtimes runtime) s.world with
      ⟨_, _, heq, -⟩ | ⟨w₁, _, _, _, _, _, heq, hran⟩
    · cases hcall.symm.trans heq
      exact h (.queue runtime)
    · cases hcall.symm.trans heq
      obtain ⟨artifacts, rfl⟩ := hran.runtimeAfter
      exact h.drained hs
  | @freed runtime runtime' _ hcall =>
    refine (h.setRuntime runtime fun hook hmem ↦ ?_).setWorld _
    rw [freePendingHooks] at hcall
    cases hcall
    exact absurd hmem List.not_mem_nil

end Bound

theorem Initial.bound (h : s.Initial) : s.Bound engines := by
  rintro (slot | id) hook hmem
  · rw [held, planHooks, h.plans] at hmem
    exact absurd hmem List.not_mem_nil
  · rw [held, h.pending] at hmem
    exact absurd hmem List.not_mem_nil

/-- A hook without a route stays without one, unless its plan is a draft. -/
theorem Stepped.noRoute {op : Op ε} {s' : System ε} (hs : s.Sound) (hstep : Stepped engines s op s')
    {slot : Nat} {plan plan' : Plan} (hplan : s.plans slot = some plan)
    (hdraft : plan.state ≠ .draft)
    (hplan' : s'.plans slot = some plan') {i : Nat} {hook hook' : Hook}
    (hget : plan.hooks[i]? = some hook) (hget' : plan'.hooks[i]? = some hook')
    (hnone : hook.result.outcome = .noRoute) : hook'.result.outcome = .noRoute := by
  have hsame : s'.plans slot = s.plans slot → hook'.result.outcome = .noRoute := by
    intro h
    rw [h, hplan] at hplan'
    cases hplan'
    rw [hget] at hget'
    cases hget'
    exact hnone
  have hnow : ∀ now : Plan, s'.plans = Function.update s.plans slot (some now) → now = plan' := by
    intro now h
    rw [h, Function.update_self] at hplan'
    exact Option.some.inj hplan'
  have hother : ∀ (slot₀ : Nat) (now : Option Plan), s'.plans = Function.update s.plans slot₀ now →
      slot ≠ slot₀ → hook'.result.outcome = .noRoute := by
    intro slot₀ now h hne
    refine hsame ?_
    rw [h, Function.update_of_ne hne]
  cases hstep with
  | idle => exact hsame rfl
  | @drafted _ slot₀ now _ hbefore =>
    refine hother slot₀ (some now) rfl ?_
    rintro rfl
    exact hdraft (hbefore plan hplan)
  | @analyzed slot₀ before now _ hbefore hstate =>
    refine hother slot₀ (some now) rfl ?_
    rintro rfl
    cases hplan.symm.trans hbefore
    exact hdraft hstate
  | @prepared slot₀ before now _ _ hbefore hcall =>
    by_cases hslot : slot = slot₀
    · subst hslot
      cases hplan.symm.trans hbefore
      obtain rfl := hnow now rfl
      obtain ⟨-, hooks, state, heq, hprepares, -⟩ := preparePlan_spec engines plan s.world
      rw [hcall] at heq
      dsimp only at heq
      subst heq
      obtain ⟨after, hafter, hp⟩ := Pointwise.getElem?_left hprepares hget
      cases hget'.symm.trans hafter
      have houtcome := hp.outcome
      rw [hnone] at houtcome
      exact houtcome
    · exact hother slot₀ (some now) rfl hslot
  | @committed slot₀ before now runtime' _ _ hbefore hcall =>
    by_cases hslot : slot = slot₀
    · subst hslot
      cases hplan.symm.trans hbefore
      obtain rfl := hnow now rfl
      have hsound := commitPlan_sound hcall (hs.nodup_plan hplan) (hs.accounted_plan hplan)
      obtain ⟨after, hafter, hc⟩ := Pointwise.getElem?_left hsound.commits hget
      cases hget'.symm.trans hafter
      rcases hc.outcome with rfl | ⟨hprepared, -⟩
      · exact hnone
      · rw [hnone] at hprepared
        cases hprepared
    · exact hother slot₀ (some now) rfl hslot
  | @released slot₀ =>
    refine hother slot₀ none rfl ?_
    rintro rfl
    replace hplan' : Function.update s.plans slot none slot = some plan' := hplan'
    rw [Function.update_self] at hplan'
    cases hplan'
  | drained => exact hsame rfl
  | freed => exact hsame rfl

/-- A request that every registered engine would violate gets no route, where nothing is unseen. -/
theorem unserved {stripCode : Ptr → Ptr} {slot : Nat}
    (hseen : s.NothingUnseen engines (.analyze slot))
    {plan plan' : Plan} (hplan : s.plans slot = some plan) (hdraft : plan.state = .draft)
    (hplan' : (s.step engines stripCode (.analyze slot)).plans slot = some plan')
    (hanalyzed : plan'.state = .analyzed) {hook : Hook} (hmem : hook ∈ plan'.hooks)
    (hnone : ∀ r ∈ (s.runtimes plan.runtime).engines,
      ¬(engines r.engine).describe.Respects hook.spec) : hook.result.outcome = .noRoute := by
  have hspec := (analyzePlan_spec engines (s.runtimes plan.runtime) plan s.world).2
  have hafter : (analyzePlan engines (s.runtimes plan.runtime) plan s.world).2.1 = plan' := by
    have hplans : (s.step engines stripCode (.analyze slot)).plans = Function.update s.plans slot
        (some (analyzePlan engines (s.runtimes plan.runtime) plan s.world).2.1) := by
      rw [step, onPlan, hplan]
      rfl
    rw [hplans, Function.update_self] at hplan'
    exact Option.some.inj hplan'
  rw [hafter] at hspec
  rcases hspec with rfl | ⟨-, -, -, hhooks⟩
  · rw [hdraft] at hanalyzed
    cases hanalyzed
  · obtain ⟨before, hbefore, ha⟩ := Pointwise.mem_right hhooks hmem
    rcases ha.routed with ⟨houtcome, -⟩ | ⟨-, r, hr, -, hserves⟩
    · exact houtcome
    · rw [ha.spec] at hnone
      exact absurd (hserves.respects_iff.2 (hseen plan hplan hdraft before hbefore r hr hserves))
        (hnone r hr)

theorem Bound.enforced (hb : s.Bound engines) (hs : s.Sound) {stripCode : Ptr → Ptr} {op : Op ε}
    (hseen : s.NothingUnseen engines op) : s.Enforced engines stripCode op := by
  have hstep := step_stepped engines stripCode s op
  refine ⟨fun place hook hmem ho ↦ ?_, ?_, ?_, fun slot plan plan' hplan hdraft hplan' i hook hook'
    hget hget' ↦ hstep.noRoute hs hplan hdraft hplan' hget hget'⟩
  · exact (hb.stepped hs hseen hstep place hook hmem).obeys ho
  · rintro runtime - i drained hdrained hactive
    obtain ⟨hook, l, w, hhook, -, rfl, -⟩ := drainLoop_getElem? engines hdrained
    have hmem := List.mem_of_getElem? hhook
    have hrespects :=
      (hb (.queue runtime) hook hmem).respects (by rw [hs.queued runtime hook hmem]; rfl)
    exact ⟨hook, hhook, hrespects, fun phase ↦ (hrespects phase).subset
      (drainOne_shows hactive phase)⟩
  · rintro slot plan plan' rfl hplan hdraft hplan' hanalyzed hook hmem hnone
    exact unserved hseen hplan hdraft hplan' hanalyzed hmem hnone

/-- **In every run in which nothing is unseen, what a request forbids does not happen.** -/
theorem enforced_run (engines : EngineRef → Engine ε) (stripCode : Ptr → Ptr) {s : System ε}
    (hstart : s.Initial) {ops : List (Op ε)}
    (hseen : Meets engines stripCode (NothingUnseen engines) s ops) :
    Meets engines stripCode (Enforced engines stripCode) s ops :=
  hseen.imp (fun s ↦ s.Sound ∧ s.Bound engines)
    (fun s op h hop ↦ ⟨h.1.stepped (step_stepped engines stripCode s op),
      h.2.stepped h.1 hop (step_stepped engines stripCode s op)⟩)
    (fun _ _ h hop ↦ h.2.enforced h.1 hop) ⟨hstart.sound, hstart.bound⟩

end System

/-! ## Effects that stay unseen -/

/-- The scripted engine, declaring effects. -/
def Engine.declaring (prepareEffects commitEffects : Mask) : Engine Unit :=
  { Engine.scripted (fun _ _ ↦ .ok) fun _ _ ↦ .complete with
    describe := { (Engine.scripted (fun _ _ ↦ .ok) fun _ _ ↦ .complete : Engine Unit).describe with
      prepareEffects := prepareEffects, commitEffects := commitEffects } }

theorem Capabilities.not_unseen {caps : Capabilities} (hprepare : caps.prepareEffects = 0)
    (hcommit : caps.commitEffects = 0) (spec : HookSpec) : ¬caps.Unseen spec := by
  have hnone : ∀ phase bit, (caps.effects phase).getLsbD bit = false := by
    rintro (_ | _) bit
    · rw [effects, hprepare]
      exact BitVec.getLsbD_zero
    · rw [effects, hcommit]
      exact BitVec.getLsbD_zero
  rintro (⟨-, h⟩ | ⟨-, phase, h | h⟩)
  · cases (hnone .prepare 63).symm.trans h
  · cases (hnone phase 5).symm.trans h
  · cases (hnone phase 6).symm.trans h

theorem System.enforced_run_silent :
    System.Meets (fun _ ↦ .declaring 0 0) id (System.Enforced (fun _ ↦ .declaring 0 0) id)
      (System.fresh () fun _ ↦ 0) (Op.hookOne 0 (.atAddress "first" 0x1000 1)) :=
  System.enforced_run (fun _ ↦ .declaring 0 0) id (System.fresh_initial () fun _ ↦ 0)
    ⟨trivial, trivial, fun _ _ _ _ _ _ _ _ ↦ Capabilities.not_unseen rfl rfl _, trivial, trivial,
      trivial⟩

/-- The request that forbids unknown preparation effects is served by an engine that declares them,
and the one that forbids continuations by an engine that declares to allocate executable memory. -/
theorem System.forbidden_unseen :
    let s := System.fresh () fun _ ↦ 0
    s.Initial ∧
      ¬System.Meets (fun _ ↦ .declaring (1 <<< 63) 0) id
        (System.Enforced (fun _ ↦ .declaring (1 <<< 63) 0) id) s
        (Op.hookOne 0 { HookSpec.atAddress "first" 0x1000 1 with constraints := 1 <<< 12 }) ∧
      ¬System.Meets (fun _ ↦ .declaring 0 (1 <<< 5)) id
        (System.Enforced (fun _ ↦ .declaring 0 (1 <<< 5)) id) s
        (Op.hookOne 0
          { HookSpec.atAddress "first" 0x1000 1 with continuationPolicy := .forbidden }) := by
  refine ⟨System.fresh_initial () fun _ ↦ 0, fun h ↦ ?_, fun h ↦ ?_⟩
  · obtain ⟨hook, hmem, hactive, hforbidden⟩ : ∃ hook ∈ ((System.fresh () fun _ ↦ 0).run
        (fun _ ↦ Engine.declaring (1 <<< 63) 0) id (Op.hookOne 0
          { HookSpec.atAddress "first" 0x1000 1 with constraints := 1 <<< 12 })).planHooks 0,
        hook.result.outcome = .active ∧ ¬hook.spec.Allows .prepare
          ((hook.caps fun _ ↦ Engine.declaring (1 <<< 63) 0).effects .prepare) := by
      decide +kernel
    exact hforbidden ((h.2.2.2.2.1.held (.slot 0) hook hmem (.inr hactive)).declared .prepare)
  · obtain ⟨hook, hmem, hactive, hforbidden⟩ : ∃ hook ∈ ((System.fresh () fun _ ↦ 0).run
        (fun _ ↦ Engine.declaring 0 (1 <<< 5)) id (Op.hookOne 0
          { HookSpec.atAddress "first" 0x1000 1 with continuationPolicy := .forbidden })).planHooks
            0,
        hook.result.outcome = .active ∧ ¬hook.spec.Allows .commit
          ((hook.caps fun _ ↦ Engine.declaring 0 (1 <<< 5)).effects .commit) := by
      decide +kernel
    exact hforbidden ((h.2.2.2.2.1.held (.slot 0) hook hmem (.inr hactive)).declared .commit)

end HookKit
