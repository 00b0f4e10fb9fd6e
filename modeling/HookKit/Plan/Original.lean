import HookKit.Plan.Account

/-!
# Originals

A hook that asks for its original has to be able to call it as soon as its replacement can be
reached.  The original's slot is part of the installed record, and that record is only made when the
commit is over, so no hook has one while its engine works.

* `CommitCall.HoldsPredecessor`, `Event.GuaranteesOriginal` — what the guarantee asks for.
* `Uninstalled` — what every run does instead.
* `originalGuaranteed_iff` — the guarantee holds exactly where nobody asks.
-/

set_option autoImplicit false

namespace HookKit

open Trace

variable {ε : Type} {engines : EngineRef → Engine ε}

/-- The slot of the original exists before the engine is asked to commit, and it holds the
predecessor as far as the core knows it. -/
def CommitCall.HoldsPredecessor (c : CommitCall) : Prop :=
  ∃ record, c.installed = some record ∧ record.hasOriginal = true ∧
    ∀ owner, c.owner = some owner → record.original = owner.headReplacement

/-- What the guarantee asks of an event: the slot holds the predecessor when the engine is reached,
and it holds the published original when the hook is active. -/
def Event.GuaranteesOriginal : Event → Prop
  | .commitCall c => c.requirement ≠ .none → c.HoldsPredecessor
  | .commitSettled r => r.requirement ≠ .none → r.outcome = .active →
    ∃ record, r.installed = some record ∧ record.hasOriginal = true ∧
      record.original = r.published
  | _ => True

/-- Nothing is installed when an engine is reached, and only a hook whose engine was reached becomes
active. -/
structure Uninstalled (history : List Event) : Prop where
  calls : ∀ c, .commitCall c ∈ history → c.installed = none
  settled : ∀ r, .commitSettled r ∈ history → r.outcome = .active →
    ∃ c, .commitCall c ∈ history ∧ c.requirement = r.requirement

namespace Uninstalled

variable {old new : List Event} {Q : Event → Prop}

theorem adds (h : Uninstalled old) (hadds : Adds Q old new)
    (hcalls : ∀ c, Q (.commitCall c) → c.installed = none)
    (hsettled : ∀ r, Q (.commitSettled r) → r.outcome = .active →
      ∃ c, .commitCall c ∈ new ∧ c.requirement = r.requirement) : Uninstalled new := by
  refine ⟨fun c hc ↦ ?_, fun r hr hactive ↦ ?_⟩
  · rcases hadds.mem hc with hc | hc
    · exact h.calls c hc
    · exact hcalls c hc
  · rcases hadds.mem hr with hr | hr
    · obtain ⟨c, hc, hrequirement⟩ := h.settled r hr hactive
      exact ⟨c, hadds.mem_old hc, hrequirement⟩
    · exact hsettled r hr hactive

theorem notActive (h : Uninstalled old) (hadds : Adds Event.notActive old new) : Uninstalled new :=
  h.adds hadds (fun _ hc ↦ hc.elim) fun _ hr hactive ↦ absurd hactive hr

theorem preparing (h : Uninstalled old) (hadds : Adds Event.preparing old new) : Uninstalled new :=
  h.adds hadds (fun _ hc ↦ hc.elim) fun _ hr ↦ hr.elim

theorem committedOne {path : Path} {runtime : RuntimeId} {hook hook' : Hook} {w w' : World ε}
    (hpast : Uninstalled w.history) (h : CommittedOne engines path runtime hook w hook' w')
    (hnone : hook.installed = none) : Uninstalled w'.history := by
  obtain ⟨mid, required, published, hadds, rfl, hactive, -⟩ := h.world
  have hmid : Uninstalled mid.history := by
    refine hpast.adds hadds.history ?_ fun r hr ↦ nomatch hr.1
    rintro c ⟨heq, -⟩
    cases heq
    exact hnone
  refine hmid.adds (.one (Q := fun e ↦ e = .commitSettled (hook'.settledRecord engines path required
    published)) rfl _) (fun c hc ↦ nomatch hc) fun r hr houtcome ↦ ?_
  cases hr
  obtain ⟨hcall, -⟩ := hactive houtcome
  refine ⟨_, List.mem_cons_of_mem _ hcall, ?_⟩
  show hook.spec.originalRequirement = hook'.spec.originalRequirement
  rw [h.same.spec]

/-- **No installed record is there in time.** -/
theorem commitPass {plan : CommitPlan} {st : CommitState ε} {flow : Loop.Flow (CommitState ε)}
    (hpast : Uninstalled st.world.history) (h : CommitPass engines plan st flow)
    (hacc : ∀ hook ∈ st.hooks, hook.Accounted st.world.history) :
    Uninstalled flow.state.world.history := by
  -- a prepared hook is not active, so it is not installed
  have hnone : ∀ hook ∈ st.hooks, hook.result.outcome = .prepared → hook.installed = none := by
    intro hook hhook hprepared
    by_contra hne
    have hactive := (hacc hook hhook).installed hne
    rw [hprepared] at hactive
    cases hactive
  cases h with
  | skip => exact hpast
  | exhausted hquiet => exact hpast.notActive (hquiet.history.mono fun _ ↦ False.elim)
  | wave hvisits _ hmembers _ hwave hcommitted =>
    refine hpast.adds hcommitted.world.history ?_ ?_
    · rintro c (⟨hook, hmem, heq⟩ | ⟨_, _, heq⟩ | ⟨_, _, _, _, _, _, heq⟩) <;> cases heq
      exact hnone hook (hooksAt_mem (hwave ▸ hmem)) (hmembers hook hmem).1
    · rintro r (⟨_, _, heq⟩ | ⟨_, _, heq⟩ | ⟨hook, hmem, hook', hmem', hsettles, _, heq⟩) hactive
        <;>
        cases heq
      refine ⟨_, hcommitted.called hook' hmem' hactive hook hmem, ?_⟩
      show hook.spec.originalRequirement = hook'.spec.originalRequirement
      rw [hsettles.spec]
  | refused =>
    exact hpast.notActive ((markDomainCommitPreflightFailed_spec engines _ _ _ _).2.1.history.mono
      fun _ he ↦ he.2)
  | @stale _ _ out _ _ _ hout =>
    have hne : out.outcome ≠ .active := by rw [hout.1]; exact nofun
    exact hpast.notActive (.one (Q := Event.notActive) (by exact hne) _)
  | @dependency _ _ out _ _ _ _ hout =>
    have hne : out.outcome ≠ .active := by rw [hout]; exact nofun
    exact hpast.notActive (.one (Q := Event.notActive) (by exact hne) _)
  | single hvisits _ _ _ hcommitted =>
    exact hpast.committedOne hcommitted
      (hnone _ (List.mem_of_getElem? hvisits.get) hvisits.prepared)

theorem drainPass {runtime : RuntimeId} {hook : Hook} {drained : Drained} {w w' : World ε}
    (hpast : Uninstalled w.history) (h : DrainPass engines runtime hook w drained w')
    (hnone : hook.installed = none) : Uninstalled w'.history := by
  cases h with
  | waits _ _ _ hquiet => exact hpast.preparing (hquiet.history.mono fun _ he ↦ he.preparing)
  | fails _ hquiet => exact hpast.preparing (hquiet.history.mono fun _ he ↦ he.preparing)
  | commits _ htouched hbefore hcommitted hafter =>
    have hone := (hpast.preparing (hbefore.history.mono fun _ he ↦ he.preparing)).committedOne
      hcommitted (htouched.installed.trans hnone)
    exact hone.preparing (hafter.history.mono fun _ he ↦ he.preparing)

end Uninstalled

theorem run_uninstalled (engines : EngineRef → Engine ε) (stripCode : Ptr → Ptr) {s : System ε}
    (hstart : s.Initial) (ops : List (Op ε)) :
    Uninstalled (s.run engines stripCode ops).world.history := by
  refine System.sound_world_invariant (I := fun w ↦ Uninstalled w.history) (fun _ _ ↦ True)
    (fun w w' hquiet h ↦ h.preparing hquiet.history)
    (fun plan st flow hacc hpass h ↦ h.commitPass hpass hacc) ?_ hstart ?_
    (System.meets_true s ops)
  · intro s runtime status results ledger runtime' w' hsound _ hcall hI
    refine drainPending_world (I := fun w ↦ Uninstalled w.history)
      (fun w w' hquiet h ↦ h.notActive (hquiet.history.mono fun _ ↦ False.elim)) ?_ hcall hI
    intro hook hhook w drained w' hI hpass
    refine hI.drainPass hpass ?_
    by_contra hne
    have hactive := (hsound.accounted (.queue runtime) hook hhook).installed hne
    rw [hsound.queued runtime hook hhook] at hactive
    cases hactive
  · rw [hstart.history]
    exact ⟨fun c hc ↦ absurd hc List.not_mem_nil, fun r hr ↦ absurd hr List.not_mem_nil⟩

/-- **Nobody's original is in its slot in time.**  A run keeps the guarantee exactly when none of
the hooks it hands to a commit callback asks for its original. -/
theorem originalGuaranteed_iff (engines : EngineRef → Engine ε) (stripCode : Ptr → Ptr)
    {s : System ε} (hstart : s.Initial) (ops : List (Op ε)) :
    (∀ e ∈ (s.run engines stripCode ops).world.history, e.GuaranteesOriginal) ↔
      ∀ c, .commitCall c ∈ (s.run engines stripCode ops).world.history → c.requirement = .none := by
  have huninstalled := run_uninstalled engines stripCode hstart ops
  constructor
  · intro h c hc
    by_contra hne
    obtain ⟨record, hrecord, -⟩ := h _ hc hne
    rw [huninstalled.calls c hc] at hrecord
    cases hrecord
  · intro h e he
    cases e with
    | commitCall c => exact fun hne ↦ absurd (h c he) hne
    | commitSettled r =>
      intro hne hactive
      obtain ⟨c, hc, hrequirement⟩ := huninstalled.settled r he hactive
      exact absurd (hrequirement.symm.trans (h c hc)) hne
    | _ => trivial

/-- A plan with one hook that asks for the direct predecessor. -/
def asksForOriginal : List (Op Unit) :=
  Op.hookOne 0
    { HookSpec.atAddress "hook" 0x1000 1 with originalRequirement := .directPredecessor }

/-- An engine that commits whatever it is asked to. -/
def obliging : EngineRef → Engine Unit := fun _ ↦ .scripted (fun _ _ ↦ .ok) fun _ _ ↦ .complete

theorem originalGuaranteed_iff_fresh :
    (∀ e ∈ ((System.fresh () fun _ ↦ 0).run obliging id asksForOriginal).world.history,
      e.GuaranteesOriginal) ↔
    ∀ c, .commitCall c ∈
      ((System.fresh () fun _ ↦ 0).run obliging id asksForOriginal).world.history →
        c.requirement = .none :=
  originalGuaranteed_iff obliging id (System.fresh_initial _ _) asksForOriginal

/-- The hook is handed to its engine before it has a slot, and it is active without one. -/
theorem original_not_in_time :
    ¬ ∀ e ∈ ((System.fresh () fun _ ↦ 0).run obliging id asksForOriginal).world.history,
      e.GuaranteesOriginal := by
  intro h
  have hany : (commitCalls ((System.fresh () fun _ ↦ 0).run obliging id
      asksForOriginal).world.history).any fun c ↦
        c.requirement ≠ .none && c.installed.isNone := by decide
  obtain ⟨c, hc, hwithout⟩ := List.any_eq_true.mp hany
  rw [Bool.and_eq_true, decide_eq_true_eq, Option.isNone_iff_eq_none] at hwithout
  obtain ⟨record, hrecord, -⟩ := h _ (mem_commitCalls hc) hwithout.1
  rw [hwithout.2] at hrecord
  cases hrecord

end HookKit
