import HookKit.Core.Progress

/-!
# What the ledgers keep

An artifact that was recorded stays where it is in its ledger; only the marks on it change.

* `Artifact.Copies` — an artifact as a ledger keeps it.
* `Ledger.append_spec`, `Ledger.appendLedger_spec` — all of it is stored, or nothing.
* `Ledger.Grows` — a ledger to which only something was added.
* `Sink.Writes`, `Sink.write_writes` — what a callback leaves in its sink.
-/

set_option autoImplicit false

namespace HookKit

/-- `b` is `a` as a ledger keeps it: with identifiers and marks of its own. -/
def Artifact.Copies (b a : Artifact) : Prop :=
  ∃ artifactId owner plan request state verified, b = { a with
    artifactId := artifactId, runtimeOwnerId := owner, planId := plan, requestId := request
    state := state, verified := verified }

theorem Artifact.Copies.refl (a : Artifact) : a.Copies a := ⟨_, _, _, _, _, _, rfl⟩

theorem Artifact.Copies.trans {a b c : Artifact} (h : c.Copies b) (h' : b.Copies a) :
    c.Copies a := by
  obtain ⟨_, _, _, _, _, _, rfl⟩ := h'
  obtain ⟨_, _, _, _, _, _, rfl⟩ := h
  exact ⟨_, _, _, _, _, _, rfl⟩

/-- The marks on an artifact are not part of what it is about. -/
structure Artifact.Marked (a b : Artifact) : Prop where
  copies : b.Copies a
  requestId : b.requestId = a.requestId

theorem Artifact.Marked.refl (a : Artifact) : a.Marked a := ⟨.refl a, rfl⟩

theorem Artifact.Marked.trans {a b c : Artifact} (h : a.Marked b) (h' : b.Marked c) : a.Marked c :=
  ⟨h'.copies.trans h.copies, h'.requestId.trans h.requestId⟩

variable {ε : Type}

namespace Ledger

/-- Something was added at the end. -/
def Grows (l l' : Ledger) : Prop := l.items <+: l'.items

theorem Grows.refl (l : Ledger) : l.Grows l := List.prefix_refl _

theorem Grows.trans {l l₁ l₂ : Ledger} (h : l.Grows l₁) (h' : l₁.Grows l₂) : l.Grows l₂ :=
  List.IsPrefix.trans h h'

theorem Grows.subset {l l' : Ledger} (h : l.Grows l') : l.items ⊆ l'.items := List.IsPrefix.subset h

theorem Grows.count_le {l l' : Ledger} (h : l.Grows l') : l.count ≤ l'.count :=
  List.IsPrefix.length_le h

theorem ensureCapacity_items (l : Ledger) (needed : Nat) (env : Env ε) :
    (l.ensureCapacity needed env).2.1.items = l.items := by
  rw [ensureCapacity]
  split
  · rfl
  · split <;> rfl

/-- An artifact is stored, or the ledger stays as it is. -/
theorem append_spec (l : Ledger) (a : Artifact) (env : Env ε) :
    (l.append a env).1 = true ∧ (l.append a env).2.1.items = l.items ++ [a] ∨
      (l.append a env).1 = false ∧ (l.append a env).2.1.items = l.items := by
  rw [append]
  split
  · exact .inr ⟨rfl, rfl⟩
  · rename_i env' _
    have hitems := ensureCapacity_items l (l.count + 1) env'
    split <;> rename_i heq <;> rw [heq] at hitems
    · exact .inr ⟨rfl, hitems⟩
    · exact .inl ⟨rfl, congrArg (· ++ [a]) hitems⟩

/-- All the artifacts of a ledger are stored, or none of them. -/
theorem appendLedger_spec (l source : Ledger) (env : Env ε) :
    (l.appendLedger source env).1 = true ∧
        (l.appendLedger source env).2.1.items = l.items ++ source.items ∨
      (l.appendLedger source env).1 = false ∧ (l.appendLedger source env).2.1.items = l.items := by
  rw [appendLedger]
  split
  · rename_i hzero
    rw [List.eq_nil_of_length_eq_zero hzero, List.append_nil]
    exact .inl ⟨rfl, rfl⟩
  · split
    · exact .inr ⟨rfl, rfl⟩
    · have hitems := ensureCapacity_items l (l.count + source.count) env
      split <;> rename_i heq <;> rw [heq] at hitems
      · exact .inr ⟨rfl, hitems⟩
      · split
        · exact .inr ⟨rfl, hitems⟩
        · exact .inl ⟨rfl, congrArg (· ++ source.items) hitems⟩

theorem appendLedger_grows (l source : Ledger) (env : Env ε) :
    l.Grows (l.appendLedger source env).2.1 := by
  rcases appendLedger_spec l source env with ⟨-, h⟩ | ⟨-, h⟩
  · exact ⟨source.items, h.symm⟩
  · rw [Grows, h]

/-! ## Marks -/

theorem mapRange_getElem? (l : Ledger) (start count i : Nat) (f : Artifact → Artifact) :
    (l.mapRange start count f).items[i]? =
      l.items[i]?.map fun a ↦ if start ≤ i ∧ i < start + count then f a else a := by
  rw [mapRange, List.getElem?_mapIdx]

theorem mapRange_count (l : Ledger) (start count : Nat) (f : Artifact → Artifact) :
    (l.mapRange start count f).count = l.count := List.length_mapIdx

/-- What may become of one artifact may become of all of them. -/
theorem mapRange_forall₂ {R : Artifact → Artifact → Prop} {l : Ledger} {start count : Nat}
    {f : Artifact → Artifact} (hrefl : ∀ a, R a a) (hf : ∀ a, R a (f a)) :
    List.Forall₂ R l.items (l.mapRange start count f).items := by
  rw [List.forall₂_iff_get]
  refine ⟨(mapRange_count l start count f).symm, fun i h h' ↦ ?_⟩
  have hget := mapRange_getElem? l start count i f
  rw [List.getElem?_eq_getElem h, List.getElem?_eq_getElem h'] at hget
  rw [List.get_eq_getElem, List.get_eq_getElem, Option.some.inj hget]
  split
  · exact hf _
  · exact hrefl _

/-- Marking a range touches nothing in front of it. -/
theorem mapRange_grows {l base : Ledger} {start count : Nat} {f : Artifact → Artifact}
    (h : base.Grows l) (hstart : base.count ≤ start) : base.Grows (l.mapRange start count f) := by
  rw [Grows, List.prefix_iff_getElem?]
  intro i hi
  have hlength : base.items.length ≤ start := hstart
  rw [mapRange_getElem?, List.prefix_iff_getElem?.mp h i hi, Option.map_some, if_neg (by omega)]

theorem markVerified_eq {l l' : Ledger} {start count : Nat}
    (h : l.markVerified start count = some l') :
    l' = l.mapRange start count fun a ↦ { a with state := .verified, verified := true } := by
  rw [markVerified] at h
  split at h
  · cases h
  · exact (Option.some.inj h).symm

theorem markCompensated_eq {l : Ledger} {start count : Nat} (h : start + count ≤ l.count) :
    l.markCompensated start count =
      some (l.mapRange start count fun a ↦
      { a with state := .compensated, verified := false }) := by
  rw [markCompensated, if_neg]
  omega

end Ledger

/-! ## Sinks -/

/-- What writing to a sink leaves in it. -/
structure Sink.Writes (sink sink' : Sink) (records : List Artifact) : Prop where
  requestId : sink'.requestId = sink.requestId
  /-- What was added belongs to the request of the sink. -/
  added : ∃ more, sink'.ledger.items = sink.ledger.items ++ more ∧
    ∀ a ∈ more, a.requestId = sink.requestId
  failed : sink'.recordFailed = false → sink.recordFailed = false
  /-- Unless a record failed, everything is there. -/
  stored : sink'.recordFailed = false → ∀ a ∈ records, ∃ b ∈ sink'.ledger.items,
    b.requestId = sink.requestId ∧ b.Copies a
  effects : sink'.observedEffects =
    records.foldl (fun effects a ↦ effects ||| a.effects) sink.observedEffects

namespace Sink

theorem Writes.grows {sink sink' : Sink} {records : List Artifact}
    (h : sink.Writes sink' records) : sink.ledger.Grows sink'.ledger := by
  obtain ⟨more, heq, -⟩ := h.added
  exact ⟨more, heq.symm⟩

theorem Writes.refl (sink : Sink) : sink.Writes sink [] :=
  ⟨rfl, ⟨[], (List.append_nil _).symm, fun _ h ↦ absurd h List.not_mem_nil⟩, id,
    fun _ _ h ↦ absurd h List.not_mem_nil, rfl⟩

theorem Writes.trans {sink sink₁ sink₂ : Sink} {records more : List Artifact}
    (h : sink.Writes sink₁ records) (h' : sink₁.Writes sink₂ more) :
    sink.Writes sink₂ (records ++ more) := by
  obtain ⟨first, hfirst, hstamped⟩ := h.added
  obtain ⟨second, hsecond, hstamped'⟩ := h'.added
  refine ⟨h'.requestId.trans h.requestId, ⟨first ++ second, ?_, fun a ha ↦ ?_⟩,
    fun hok ↦ h.failed (h'.failed hok), fun hok a ha ↦ ?_, ?_⟩
  · rw [hsecond, hfirst, List.append_assoc]
  · rcases List.mem_append.mp ha with ha | ha
    · exact hstamped a ha
    · exact (hstamped' a ha).trans h.requestId
  · rcases List.mem_append.mp ha with ha | ha
    · obtain ⟨b, hb, hcopies⟩ := h.stored (h'.failed hok) a ha
      exact ⟨b, h'.grows.subset hb, hcopies⟩
    · obtain ⟨b, hb, hrequest, hcopies⟩ := h'.stored hok a ha
      exact ⟨b, hb, hrequest.trans h.requestId, hcopies⟩
  · rw [List.foldl_append, ← h.effects, h'.effects]

theorem record_writes (sink : Sink) (a : Artifact) (w : World ε) :
    sink.Writes (sink.record a w).1 [a] := by
  rw [record]
  dsimp only
  generalize hstamped : ({ a with
    artifactId := w.freshId.1, planId := sink.planId, requestId := sink.requestId
    runtimeOwnerId := sink.runtimeOwnerId } : Artifact) = stamped
  have hcopies : stamped.Copies a := by
    rw [← hstamped]
    exact ⟨_, _, _, _, _, _, rfl⟩
  have hrequest : stamped.requestId = sink.requestId := by rw [← hstamped]
  have happend := sink.ledger.append_spec stamped w.freshId.2.env
  generalize sink.ledger.append stamped w.freshId.2.env = appended at happend ⊢
  obtain ⟨ok, ledger, env⟩ := appended
  dsimp only at happend ⊢
  rcases happend with ⟨rfl, hitems⟩ | ⟨rfl, hitems⟩
  · refine ⟨rfl, ⟨[stamped], hitems, fun b hb ↦ ?_⟩, fun hok ↦ ?_, fun _ b hb ↦ ?_, rfl⟩
    · rw [List.mem_singleton.mp hb]
      exact hrequest
    · simpa using hok
    · obtain rfl := List.mem_singleton.mp hb
      exact ⟨stamped, hitems ▸ List.mem_append_right _ List.mem_cons_self, hrequest, hcopies⟩
  · refine ⟨rfl, ⟨[], hitems.trans (List.append_nil _).symm, fun b hb ↦ ?_⟩, fun hok ↦ ?_,
      fun hok ↦ ?_, rfl⟩
    · exact absurd hb List.not_mem_nil
    · simp at hok
    · simp at hok

/-- **What a callback leaves in its sink.** -/
theorem write_writes (sink : Sink) (writes : SinkWrites) (w : World ε) :
    sink.Writes (sink.write writes w).1 writes.records := by
  have hfold : ∀ (records : List Artifact) (sink : Sink) (w : World ε),
      sink.Writes (records.foldl (fun (p : Sink × World ε) a ↦ p.1.record a p.2) (sink, w)).1
        records := by
    intro records
    induction records with
    | nil => exact fun sink w ↦ .refl sink
    | cons a rest ih =>
      intro sink w
      exact (sink.record_writes a w).trans (ih _ _)
  have h := hfold writes.records sink w
  exact ⟨h.requestId, h.added, h.failed, h.stored, h.effects⟩

end Sink

end HookKit
