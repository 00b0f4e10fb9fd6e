import HookKit.Lib.Trace
import HookKit.Core.World

/-!
# What happens to the process

The two relations in which the effect of a function on the shared state is described: `Adds` says
which events it may add to the history, and `Quiet` that it leaves the ownership ledger alone as
well.  Both are reflexive and transitive, and the small operations on the process come first.
-/

set_option autoImplicit false

namespace HookKit

open Trace

variable {ε : Type}

namespace World

/-- Between `w` and `w'` identifiers were only handed out, and only events satisfying `Q` added. -/
structure Adds (Q : Event → Prop) (w w' : World ε) : Prop where
  nextId : w.nextId ≤ w'.nextId
  history : Trace.Adds Q w.history w'.history

/-- `Adds`, and no key changed its owner. -/
structure Quiet (Q : Event → Prop) (w w' : World ε) : Prop extends Adds Q w w' where
  owners : w'.owners = w.owners

variable {Q Q' : Event → Prop} {w w₁ w₂ : World ε}

theorem Adds.refl (w : World ε) : Adds Q w w := ⟨le_rfl, .refl Q _⟩

theorem Adds.trans (h : Adds Q w w₁) (h' : Adds Q w₁ w₂) : Adds Q w w₂ :=
  ⟨h.nextId.trans h'.nextId, h.history.trans h'.history⟩

theorem Adds.mono (h : Adds Q w w₁) (himp : ∀ e, Q e → Q' e) : Adds Q' w w₁ :=
  ⟨h.nextId, h.history.mono himp⟩

theorem Adds.log (h : Adds Q w w₁) {e : Event} (he : Q e) : Adds Q w (w₁.log e) :=
  ⟨h.nextId, h.history.cons he⟩

theorem Quiet.refl (w : World ε) : Quiet Q w w := ⟨.refl w, rfl⟩

theorem Quiet.trans (h : Quiet Q w w₁) (h' : Quiet Q w₁ w₂) : Quiet Q w w₂ :=
  ⟨h.toAdds.trans h'.toAdds, h'.owners.trans h.owners⟩

theorem Quiet.mono (h : Quiet Q w w₁) (himp : ∀ e, Q e → Q' e) : Quiet Q' w w₁ :=
  ⟨h.toAdds.mono himp, h.owners⟩

theorem Quiet.log (h : Quiet Q w w₁) {e : Event} (he : Q e) : Quiet Q w (w₁.log e) :=
  ⟨h.toAdds.log he, h.owners⟩

theorem Quiet.setEnv (h : Quiet Q w w₁) (env : Env ε) : Quiet Q w (w₁.setEnv env) :=
  ⟨⟨h.nextId, h.history⟩, h.owners⟩

/-- A step in which nothing is written down keeps the history. -/
theorem Adds.history_eq (h : Adds (fun _ ↦ False) w w₁) : w₁.history = w.history := by
  obtain ⟨added, hnew, hQ⟩ := h.history
  cases added with
  | nil => exact hnew
  | cons e added => exact absurd (hQ e List.mem_cons_self) id

/-! ## The small operations -/

theorem quiet_log (w : World ε) {e : Event} (he : Q e) : Quiet Q w (w.log e) :=
  (Quiet.refl w).log he

theorem quiet_setEnv (w : World ε) (env : Env ε) : Quiet Q w (w.setEnv env) :=
  (Quiet.refl w).setEnv env

theorem quiet_call {α : Type} (w : World ε) (f : Env ε → α × Env ε) : Quiet Q w (w.call f).2 :=
  quiet_setEnv w _

theorem quiet_alloc (w : World ε) : Quiet Q w w.alloc.2 := quiet_call w _

theorem quiet_freshId (w : World ε) : Quiet Q w w.freshId.2 :=
  ⟨⟨Nat.le_succ _, .refl Q _⟩, rfl⟩

theorem quiet_createInstalled (w : World ε) (installedId : Id) (original : Ptr)
    (result : HookResult) : Quiet Q w (w.createInstalled installedId original result).2 := by
  have halloc : Quiet Q w w.alloc.2 := quiet_alloc w
  rw [createInstalled]
  cases hw : w.alloc with
  | mk ok w' =>
    rw [hw] at halloc
    cases ok with
    | false => exact halloc
    | true => exact ⟨⟨halloc.nextId, halloc.history⟩, halloc.owners⟩

theorem quiet_appendProcessLedger (w : World ε) (source : Ledger) :
    Quiet Q w (w.appendProcessLedger source) := by
  rw [appendProcessLedger]
  split
  · exact ⟨⟨le_rfl, .refl Q _⟩, rfl⟩
  · split
    · exact quiet_setEnv w _
    · exact ⟨⟨le_rfl, .refl Q _⟩, rfl⟩

theorem adds_recordOwner (w : World ε) (key : Key) (engineId : Option String)
    (replacement predecessor : Ptr) :
    Adds Q w (w.recordOwner key engineId replacement predecessor).2 :=
  ⟨le_rfl, .refl Q _⟩

end World

theorem Sink.quiet_record {Q : Event → Prop} (sink : Sink) (a : Artifact) (w : World ε) :
    w.Quiet Q (sink.record a w).2 :=
  (World.quiet_freshId w).setEnv _

theorem Sink.quiet_write {Q : Event → Prop} (sink : Sink) (writes : SinkWrites) (w : World ε) :
    w.Quiet Q (sink.write writes w).2 := by
  rw [Sink.write]
  generalize writes.records = records
  induction records generalizing sink w with
  | nil => exact .refl w
  | cons a rest ih => exact (sink.quiet_record a w).trans (ih _ _)

/-! ## Surroundings -/

theorem Sink.record_generation (sink : Sink) (a : Artifact) (w : World ε) :
    (sink.record a w).2.env.generation = w.env.generation := by
  rw [Sink.record]
  exact Ledger.append_generation _ _ _

theorem Sink.write_generation (sink : Sink) (writes : SinkWrites) (w : World ε) :
    (sink.write writes w).2.env.generation = w.env.generation := by
  rw [Sink.write]
  dsimp only
  generalize writes.records = records
  induction records generalizing sink w with
  | nil => rfl
  | cons a rest ih => exact (ih _ _).trans (sink.record_generation a w)

/-! ## Kinds of events -/

/-- The events of a commit or a drain, about hooks among `ids`. -/
def Event.ofCommit (ids : List Id) : Event → Prop
  | .commitCall call => call.hook ∈ ids
  | .commitSettled settled => settled.hook ∈ ids
  | .compensateCall .. => True
  | _ => False

/-- The events that only tell who holds an engine's prepared state. -/
def Event.ofState : Event → Prop
  | .obtained .. | .released .. => True
  | _ => False

/-- The events that follow the answer of a preparation callback, about hooks among `ids`. -/
def Event.ofAnswer (ids : List Id) : Event → Prop
  | .obtained .. | .released .. => True
  | .prepareSettled hook outcome => hook ∈ ids ∧ outcome ≠ .active
  | _ => False

/-- The events of preparing hooks among `ids`, and of letting go of what was prepared. -/
def Event.ofPrepare (ids : List Id) : Event → Prop
  | .obtained .. | .released .. => True
  | .prepareSettled hook outcome => hook ∈ ids ∧ outcome ≠ .active
  | .prepareCall _ hook _ _ => hook ∈ ids
  | _ => False

/-- The events of everything but a commit. -/
def Event.preparing : Event → Prop
  | .obtained .. | .released .. | .prepareSettled .. | .prepareCall .. => True
  | _ => False

variable {ids : List Id} {e : Event}

theorem Event.ofPrepare.preparing (h : e.ofPrepare ids) : e.preparing := by
  cases e <;> trivial

theorem Event.ofState.preparing (h : e.ofState) : e.preparing := by
  cases e <;> trivial

theorem Event.ofState.ofAnswer (h : e.ofState) : e.ofAnswer ids := by
  cases e <;> trivial

theorem Event.ofAnswer.ofPrepare (h : e.ofAnswer ids) : e.ofPrepare ids := by
  cases e <;> trivial

theorem Event.ofState.ofPrepare (h : e.ofState) : e.ofPrepare ids := h.ofAnswer.ofPrepare

end HookKit
