import HookKit.Plan.SystemSteps

/-!
# Ownership chains

The hooks that become active on one target form a chain: each of them replaces the one before, and
the ownership ledger remembers the last.  This file says so of every run whose hooks are committed
one at a time, by comparing the ledger with the history.

* `ownerAfter`, `lastActive` — the record and the head of a key, as the history tells.
* `Event.Chains` — a hook is handed to its engine with the head of its key, and an active one has
  published it.
* `OwnershipChain` — the invariant.
-/

set_option autoImplicit false

namespace HookKit

open Trace

variable {ε : Type} {engines : EngineRef → Engine ε}

/-- The events of the grouped path. -/
def Event.grouped : Event → Prop
  | .commitCall c => c.path = .group
  | .commitSettled r => r.path = .group
  | _ => False

instance : DecidablePred Event.grouped
  | .commitCall c => inferInstanceAs (Decidable (c.path = .group))
  | .commitSettled r => inferInstanceAs (Decidable (r.path = .group))
  | .prepareCall .. | .prepareSettled .. | .obtained .. | .released .. | .compensateCall .. =>
    inferInstanceAs (Decidable False)

/-- The record of a key, as the history tells: every hook that becomes active heads it. -/
def ownerAfter (key : Key) : List Event → Option Owner
  | [] => none
  | .commitSettled r :: past =>
    if r.outcome = .active ∧ key = r.key then
      some (Owners.headed (ownerAfter key past) r.engineId r.replacement r.published)
    else ownerAfter key past
  | _ :: past => ownerAfter key past

/-- The hook that became active last on a key. -/
def lastActive (key : Key) : List Event → Option CommitSettled
  | [] => none
  | .commitSettled r :: past =>
    if r.outcome = .active ∧ key = r.key then some r else lastActive key past
  | _ :: past => lastActive key past

/-- What an event has to do with the hook that was active on its key before.  An engine is reached
with the record of the key and told to require its head; a hook that becomes active was handed over
with that requirement, and it published the replacement it was to require. -/
def Event.Chains : Event → List Event → Prop
  | .commitCall c, past =>
    c.owner = ownerAfter c.key past ∧
      c.requiredPredecessor = (lastActive c.key past).map CommitSettled.replacement ∧
      ∀ before, lastActive c.key past = some before → c.engineId = before.engineId
  | .commitSettled r, past => r.outcome = .active →
    (∃ c, .commitCall c ∈ past ∧ c.hook = r.hook ∧ c.key = r.key ∧ c.engineId = r.engineId ∧
        c.requiredPredecessor = r.requiredPredecessor) ∧
      r.requiredPredecessor = (lastActive r.key past).map CommitSettled.replacement ∧
      ∀ before, lastActive r.key past = some before →
        r.published = before.replacement ∧ r.engineId = before.engineId
  | _, _ => True

/-! ## What the history tells -/

section History

variable {history past : List Event} {key : Key} {e : Event}

theorem ownerAfter_notActive (h : e.notActive ∨ ∃ c, e = .commitCall c) :
    ownerAfter key (e :: past) = ownerAfter key past := by
  cases e with
  | commitSettled r =>
    rcases h with h | ⟨c, h⟩
    · rw [ownerAfter, if_neg fun h' ↦ h h'.1]
    · cases h
  | _ => rfl

theorem lastActive_notActive (h : e.notActive ∨ ∃ c, e = .commitCall c) :
    lastActive key (e :: past) = lastActive key past := by
  cases e with
  | commitSettled r =>
    rcases h with h | ⟨c, h⟩
    · rw [lastActive, if_neg fun h' ↦ h h'.1]
    · cases h
  | _ => rfl

/-- The head of a key is the replacement of the hook that was active on it last. -/
theorem ownerAfter_head (key : Key) (history : List Event) :
    (ownerAfter key history).map Owner.headReplacement =
      (lastActive key history).map CommitSettled.replacement := by
  induction history with
  | nil => rfl
  | cons e past ih =>
    cases e with
    | commitSettled r =>
      rw [ownerAfter, lastActive]
      split
      · rfl
      · exact ih
    | _ => exact ih

/-- The engine of a record is the engine of the last active hook. -/
theorem ownerAfter_engine (h : Always Event.Chains history) :
    (ownerAfter key history).map Owner.engineId =
      (lastActive key history).map CommitSettled.engineId := by
  induction history with
  | nil => rfl
  | cons e past ih =>
    have ih := ih h.2
    cases e with
    | commitSettled r =>
      rw [ownerAfter, lastActive]
      split
      · rename_i hactive
        obtain ⟨-, -, hbefore⟩ := h.1 hactive.1
        rw [Option.map_some, Option.map_some, Owners.headed, ih, hactive.2]
        cases hlast : lastActive r.key past with
        | none => rfl
        | some before =>
          rw [Option.map_some, Option.getD_some]
          exact congrArg some (hbefore before hlast).2.symm
      · exact ih
    | _ => exact ih

/-- A hook that became active on a key has the engine of the last one. -/
theorem lastActive_engine (h : Always Event.Chains history) {r : CommitSettled}
    (hr : .commitSettled r ∈ history) (hactive : r.outcome = .active) :
    ∃ last, lastActive r.key history = some last ∧ last.engineId = r.engineId := by
  induction history with
  | nil => exact absurd hr List.not_mem_nil
  | cons e past ih =>
    rcases List.mem_cons.mp hr with rfl | hr
    · exact ⟨r, if_pos ⟨hactive, rfl⟩, rfl⟩
    · obtain ⟨last, hlast, hengine⟩ := ih h.2 hr
      cases e with
      | commitSettled r' =>
        by_cases hnew : r'.outcome = .active ∧ r.key = r'.key
        · refine ⟨r', if_pos hnew, ?_⟩
          obtain ⟨-, -, hbefore⟩ := h.1 hnew.1
          rw [← hengine, (hbefore last (hnew.2 ▸ hlast)).2]
        · exact ⟨last, (if_neg hnew).trans hlast, hengine⟩
      | _ => exact ⟨last, hlast, hengine⟩

end History

/-! ## The invariant -/

/-- The ledger is what the history tells, and the history is made of chains. -/
structure OwnershipChain (w : World ε) : Prop where
  record : ∀ key, w.owners.lookup key = ownerAfter key w.history
  chains : Always Event.Chains w.history

namespace OwnershipChain

variable {w w' : World ε}

/-- Nobody becomes active and no engine is asked to commit. -/
theorem quiet (h : OwnershipChain w) (hquiet : w.Quiet Event.notActive w') : OwnershipChain w' := by
  obtain ⟨halways, hrecord⟩ := h.chains.adds_while
    (fun past ↦ ∀ key, w.owners.lookup key = ownerAfter key past) h.record hquiet.history
    fun e past he hpast ↦ by
      refine ⟨?_, fun key ↦ (hpast key).trans (ownerAfter_notActive (.inl he)).symm⟩
      cases e with
      | commitCall c => exact he.elim
      | commitSettled r => exact fun hactive ↦ absurd hactive he
      | _ => trivial
  refine ⟨fun key ↦ ?_, halways⟩
  rw [hquiet.owners]
  exact hrecord key

/-- **A hook that is committed by itself** joins the chain of its key, or leaves every record as it
was. -/
theorem committedOne {path : Path} {runtime : RuntimeId} {hook hook' : Hook} (h : OwnershipChain w)
    (hcommitted : CommittedOne engines path runtime hook w hook' w') : OwnershipChain w' := by
  obtain ⟨mid, required, published, hadds, rfl, hactive, hkept⟩ := hcommitted.world
  obtain ⟨hcalls, hmid⟩ := h.chains.adds_while (fun past ↦ Always Event.Chains past ∧ ∀ key,
      ownerAfter key past = ownerAfter key w.history ∧
      lastActive key past = lastActive key w.history)
    ⟨h.chains, fun key ↦ ⟨rfl, rfl⟩⟩ hadds.history fun e past he hpast ↦ by
      obtain ⟨rfl, hengine⟩ := he
      obtain ⟨hpast, hsame⟩ := hpast
      have hchains : Event.Chains (.commitCall (hook.commitRecord engines path runtime
          ((w.owners.lookup hook.targetKey).map Owner.headReplacement) w)) past := by
        refine ⟨?_, ?_, fun before hbefore ↦ ?_⟩
        · exact (h.record hook.targetKey).trans (hsame hook.targetKey).1.symm
        · refine Eq.trans ?_ (congrArg _ (hsame hook.targetKey).2.symm)
          rw [← ownerAfter_head, ← h.record]
          rfl
        · have hmap := @ownerAfter_engine _ hook.targetKey h.chains
          rw [← h.record, ← (hsame hook.targetKey).2,
            show lastActive hook.targetKey past = some before from hbefore] at hmap
          obtain ⟨o, ho, heq⟩ := Option.map_eq_some_iff.mp hmap
          rw [← heq]
          exact hengine o ho
      refine ⟨hchains, ⟨hchains, hpast⟩, fun key ↦ ⟨?_, ?_⟩⟩
      · exact (ownerAfter_notActive (.inr ⟨_, rfl⟩)).trans (hsame key).1
      · exact (lastActive_notActive (.inr ⟨_, rfl⟩)).trans (hsame key).2
  obtain ⟨-, hmid⟩ := hmid
  by_cases houtcome : hook'.result.outcome = .active
  · obtain ⟨hcall, hrequired, hpublished, hheads⟩ := hactive houtcome
    have hhead : required =
        (lastActive hook.targetKey mid.history).map CommitSettled.replacement := by
      rw [hrequired, (hmid hook.targetKey).2, ← ownerAfter_head, ← h.record]
    have hkey := hcommitted.same.targetKey
    have hengineId := congrArg Capabilities.engineId (@Hook.Same.caps _ engines _ _ hcommitted.same)
    constructor
    · intro key
      rw [hheads key, World.log_history, ownerAfter]
      by_cases hk : key = hook.targetKey
      · rw [if_pos hk, if_pos ⟨houtcome, hk.trans hkey.symm⟩, hk, (hmid hook.targetKey).1,
          ← h.record]
        show _ = some
            (Owners.headed _ (hook'.caps engines).engineId hook'.spec.replacement published)
        rw [hengineId, hcommitted.same.spec]
      · rw [if_neg hk, if_neg fun h' ↦ hk (h'.2.trans hkey), (hmid key).1, ← h.record]
    · refine hcalls.cons fun _ ↦ ⟨⟨_, hcall, hcommitted.same.hookId.symm, hkey.symm, ?_, rfl⟩, ?_,
        fun before hbefore ↦ ?_⟩
      · exact hengineId.symm
      · rw [show (hook'.settledRecord engines path required published).key =
          hook.targetKey from hkey]
        exact hhead
      · have hbefore : lastActive hook.targetKey mid.history = some before := hkey ▸ hbefore
        have hmap := @ownerAfter_engine _ hook.targetKey h.chains
        have hmap' := ownerAfter_head hook.targetKey w.history
        rw [← h.record, ← (hmid hook.targetKey).2, hbefore] at hmap
        rw [← h.record, ← (hmid hook.targetKey).2, hbefore] at hmap'
        obtain ⟨o, ho, heq⟩ := Option.map_eq_some_iff.mp hmap
        rw [ho] at hmap'
        obtain ⟨hpub, heng⟩ := hpublished o ho
        exact ⟨hpub.trans (Option.some.inj hmap'), (hengineId.trans heng).trans heq⟩
  · have howners := hkept houtcome
    have hnot : Event.notActive
        (.commitSettled (hook'.settledRecord engines path required published)) := houtcome
    refine ⟨fun key ↦ ?_, hcalls.cons fun hactive ↦ absurd hactive houtcome⟩
    rw [howners, World.log_history, ownerAfter_notActive (.inl hnot), (hmid key).1]
    exact h.record key

/-- The passes of a commit that do not go through a wave. -/
theorem commitPass {plan : CommitPlan} {st : CommitState ε} {flow : Loop.Flow (CommitState ε)}
    (h : OwnershipChain st.world) (hpass : CommitPass engines plan st flow)
    (hsingle : ∀ e ∈ flow.state.world.history, ¬ e.grouped) : OwnershipChain flow.state.world := by
  cases hpass with
  | skip => exact h
  | exhausted hquiet => exact h.quiet (hquiet.mono fun _ ↦ False.elim)
  | @wave _ _ hook rest settled _ _ _ _ _ _ _ _ hcommitted =>
    -- the first member of a wave is settled on the grouped path
    obtain ⟨hook', hmem, -⟩ := Pointwise.mem_left hcommitted.settles List.mem_cons_self
    obtain ⟨required, published, hrecord⟩ := hcommitted.recorded hook' hmem
    exact absurd rfl (hsingle _ hrecord)
  | refused =>
    exact h.quiet ((markDomainCommitPreflightFailed_spec engines _ _ _ _).2.1.mono fun _ he ↦ he.2)
  | @stale _ _ out _ _ _ hout =>
    refine h.quiet (World.quiet_log _ ?_)
    show out.outcome ≠ .active
    rw [hout.1]
    exact nofun
  | @dependency _ _ out _ _ _ _ hout =>
    refine h.quiet (World.quiet_log _ ?_)
    show out.outcome ≠ .active
    rw [hout]
    exact nofun
  | single _ _ _ _ hcommitted => exact h.committedOne hcommitted

theorem drainPass {runtime : RuntimeId} {hook : Hook} {drained : Drained} (h : OwnershipChain w)
    (hpass : DrainPass engines runtime hook w drained w') : OwnershipChain w' := by
  have hpreparing : ∀ e : Event, e.preparing → e.notActive := by
    intro e he
    cases e <;> trivial
  cases hpass with
  | waits _ _ _ hquiet =>
    exact h.quiet (hquiet.mono fun e he ↦ hpreparing e he.preparing)
  | fails _ hquiet => exact h.quiet (hquiet.mono fun e he ↦ hpreparing e he.preparing)
  | commits _ _ hbefore hcommitted hafter =>
    have hone := (h.quiet (hbefore.mono fun e he ↦ hpreparing e he.preparing)).committedOne
      hcommitted
    exact hone.quiet (hafter.mono fun e he ↦ hpreparing e he.preparing)

end OwnershipChain

/-! ## Runs -/

/-- Events are only added, so a history without grouped events never had any. -/
theorem ungrouped_of_adds {Q : Event → Prop} {w w' : World ε} (hadds : w.Adds Q w')
    (h : ∀ e ∈ w'.history, ¬ e.grouped) : ∀ e ∈ w.history, ¬ e.grouped :=
  fun e he ↦ h e (hadds.history.mem_old he)

/-- **Ownership chains.**  In every run whose hooks are all committed one at a time, by commits and
by drains, the record of a key is what its active hooks made of it: its head is the replacement of
the last of them, all of them come from one engine, each was handed to that engine with the
replacement of the one before as required predecessor and published it, and whoever does not become
active leaves the ledger alone. -/
theorem ownership_chain (stripCode : Ptr → Ptr) {s : System ε} (hstart : s.Initial)
    (ops : List (Op ε))
    (hsingle : ∀ e ∈ (s.run engines stripCode ops).world.history, ¬ e.grouped) :
    (∀ key, (s.run engines stripCode ops).world.owners.lookup key =
      ownerAfter key (s.run engines stripCode ops).world.history) ∧
    (∀ key, ((s.run engines stripCode ops).world.owners.lookup key).map Owner.headReplacement =
      (lastActive key (s.run engines stripCode ops).world.history).map CommitSettled.replacement) ∧
    (∀ r r', .commitSettled r ∈ (s.run engines stripCode ops).world.history →
      .commitSettled r' ∈ (s.run engines stripCode ops).world.history →
      r.outcome = .active → r'.outcome = .active → r.key = r'.key → r.engineId = r'.engineId) ∧
    Always Event.Chains (s.run engines stripCode ops).world.history ∧
    ∀ path runtime planId ownerId continuation hook out ledger (w : World ε),
      (commitOneHook engines path runtime planId ownerId continuation hook out ledger w
        ).1.result.outcome ≠ .active →
      (commitOneHook engines path runtime planId ownerId continuation hook out ledger w
        ).2.2.owners = w.owners := by
  have hchain : OwnershipChain (s.run engines stripCode ops).world := by
    refine System.world_invariant
      (I := fun w ↦ (∀ e ∈ w.history, ¬ e.grouped) → OwnershipChain w) ?_ ?_ ?_ ?_ hsingle
    · intro w w' hquiet hI hungrouped
      exact (hI (ungrouped_of_adds hquiet.toAdds hungrouped)).quiet
        (hquiet.mono fun e he ↦ by cases e <;> trivial)
    · intro plan st flow hpass hI hungrouped
      exact (hI (ungrouped_of_adds hpass.adds hungrouped)).commitPass hpass hungrouped
    · intro runtime hook w drained w' hpass hI hungrouped
      exact (hI (ungrouped_of_adds hpass.adds hungrouped)).drainPass hpass
    · intro _
      refine ⟨fun key ↦ ?_, ?_⟩
      · rw [hstart.owners, hstart.history]
        rfl
      · rw [hstart.history]
        trivial
  refine ⟨hchain.record, fun key ↦ ?_, ?_, hchain.chains, ?_⟩
  · rw [hchain.record, ownerAfter_head]
  · intro r r' hr hr' hactive hactive' hkey
    obtain ⟨last, hlast, hengine⟩ := lastActive_engine hchain.chains hr hactive
    obtain ⟨last', hlast', hengine'⟩ := lastActive_engine hchain.chains hr' hactive'
    rw [hkey, hlast'] at hlast
    cases hlast
    exact hengine.symm.trans hengine'
  · intro path runtime planId ownerId continuation hook out ledger w hne
    obtain ⟨_, _, _, _, _, _, hkept⟩ := (commitOneHook_spec engines path runtime planId ownerId
      continuation hook out ledger w).world
    exact hkept hne

/-- Two plans that hook the same function one after the other. -/
def chainOfTwo : System Unit :=
  (System.fresh () fun _ ↦ 0).run (fun _ ↦ .scripted (fun _ _ ↦ .ok) fun _ _ ↦ .complete) id
    (Op.hookOne 0 (.atAddress "first" 0x1000 1) ++ Op.hookOne 1 (.atAddress "second" 0x1000 2))

theorem ownership_chain_two :
    Always Event.Chains chainOfTwo.world.history ∧
      chainOfTwo.world.owners.map (fun entry ↦ entry.2.headReplacement) = [2] :=
  ⟨(ownership_chain id (System.fresh_initial _ _) _ (by decide)).2.2.2.1, by decide⟩

end HookKit
