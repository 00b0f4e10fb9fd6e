import Mathlib.Data.List.Basic

/-!
# Histories

A history is a list of events, the newest first.  What is said about a run is said about its
history: which events a step may add to it, and what every event has to find in its past.

* `Adds Q old new` — `new` is `old` with events that satisfy `Q` on top.
* `Since old new e` — `e` is one of the events on top.
* `Always P history` — every event satisfies `P` in the light of the events before it.
* `Always.adds` — events that satisfy `P` whatever their past may be added freely.
* `Always.adds_while` — events that satisfy `P` as long as something holds of their past.
-/

set_option autoImplicit false

namespace Trace

variable {α : Type*}

/-! ## Adding events -/

/-- Some events that satisfy `Q` were added. -/
def Adds (Q : α → Prop) (old new : List α) : Prop :=
  ∃ added, new = added ++ old ∧ ∀ e ∈ added, Q e

variable {Q Q' : α → Prop} {old mid new : List α}

theorem Adds.refl (Q : α → Prop) (old : List α) : Adds Q old old :=
  ⟨[], rfl, fun _ h ↦ absurd h List.not_mem_nil⟩

theorem Adds.trans (h : Adds Q old mid) (h' : Adds Q mid new) : Adds Q old new := by
  obtain ⟨added, rfl, hQ⟩ := h
  obtain ⟨added', rfl, hQ'⟩ := h'
  refine ⟨added' ++ added, (List.append_assoc _ _ _).symm, fun e he ↦ ?_⟩
  rcases List.mem_append.mp he with he | he
  · exact hQ' e he
  · exact hQ e he

theorem Adds.mono (h : Adds Q old new) (himp : ∀ e, Q e → Q' e) : Adds Q' old new := by
  obtain ⟨added, hnew, hQ⟩ := h
  exact ⟨added, hnew, fun e he ↦ himp e (hQ e he)⟩

/-- One more event. -/
theorem Adds.cons (h : Adds Q old new) {e : α} (he : Q e) : Adds Q old (e :: new) := by
  obtain ⟨added, rfl, hQ⟩ := h
  refine ⟨e :: added, rfl, fun e' he' ↦ ?_⟩
  rcases List.mem_cons.mp he' with rfl | he'
  · exact he
  · exact hQ e' he'

theorem Adds.one {e : α} (he : Q e) (old : List α) : Adds Q old (e :: old) :=
  (Adds.refl Q old).cons he

/-- Nothing is forgotten. -/
theorem Adds.mem_old (h : Adds Q old new) {e : α} (he : e ∈ old) : e ∈ new := by
  obtain ⟨added, rfl, -⟩ := h
  exact List.mem_append_right added he

/-- An event of the new history is an old one or satisfies `Q`. -/
theorem Adds.mem (h : Adds Q old new) {e : α} (he : e ∈ new) : e ∈ old ∨ Q e := by
  obtain ⟨added, rfl, hQ⟩ := h
  rcases List.mem_append.mp he with he | he
  · exact .inr (hQ e he)
  · exact .inl he

/-- One of the events that were added. -/
def Since (old new : List α) (e : α) : Prop := ∃ added, new = added ++ old ∧ e ∈ added

theorem Adds.since (h : Adds Q old new) {e : α} (he : Since old new e) : Q e := by
  obtain ⟨added, rfl, hQ⟩ := h
  obtain ⟨added', heq, hmem⟩ := he
  rw [List.append_cancel_right heq] at hQ
  exact hQ e hmem

/-- What was not there before was added. -/
theorem Adds.since_of_notMem (h : Adds Q old new) {e : α} (he : e ∈ new) (hold : e ∉ old) :
    Since old new e := by
  obtain ⟨added, rfl, -⟩ := h
  exact ⟨added, rfl, (List.mem_append.mp he).resolve_right hold⟩

/-- An event of two steps was added by the first or by the second. -/
theorem Since.cases (h : Adds Q old mid) (h' : Adds Q' mid new) {e : α} (he : Since old new e) :
    Since old mid e ∨ Since mid new e := by
  obtain ⟨added, rfl, -⟩ := h
  obtain ⟨added', rfl, -⟩ := h'
  obtain ⟨both, heq, hmem⟩ := he
  rw [← List.append_assoc] at heq
  rw [← List.append_cancel_right heq] at hmem
  rcases List.mem_append.mp hmem with hmem | hmem
  · exact .inr ⟨added', rfl, hmem⟩
  · exact .inl ⟨added, rfl, hmem⟩

theorem Since.later {e : α} (he : Since old mid e) (h : Adds Q mid new) : Since old new e := by
  obtain ⟨added, rfl, hmem⟩ := he
  obtain ⟨added', rfl, -⟩ := h
  exact ⟨added' ++ added, (List.append_assoc _ _ _).symm, List.mem_append_right _ hmem⟩

theorem Since.earlier {e : α} (h : Adds Q old mid) (he : Since mid new e) : Since old new e := by
  obtain ⟨added, rfl, -⟩ := h
  obtain ⟨added', rfl, hmem⟩ := he
  exact ⟨added' ++ added, (List.append_assoc _ _ _).symm, List.mem_append_left _ hmem⟩

/-! ## Properties of every event -/

/-- Every event satisfies `P` given the events before it. -/
def Always (P : α → List α → Prop) : List α → Prop
  | [] => True
  | e :: past => P e past ∧ Always P past

variable {P P' : α → List α → Prop}

@[simp] theorem always_nil : Always P [] := trivial

instance Always.decidable [∀ e past, Decidable (P e past)] :
    (history : List α) → Decidable (Always P history)
  | [] => inferInstanceAs (Decidable True)
  | e :: past =>
    have := Always.decidable past
    inferInstanceAs (Decidable (P e past ∧ Always P past))

theorem Always.cons {e : α} {past : List α} (h : Always P past) (he : P e past) :
    Always P (e :: past) := ⟨he, h⟩

/-- What holds of an event, read off a history that contains it. -/
theorem Always.at {later past : List α} {e : α} (h : Always P (later ++ e :: past)) :
    P e past := by
  induction later with
  | nil => exact h.1
  | cons e' later ih => exact ih h.2

/-- A property of events that does not look at the past holds of every member. -/
theorem Always.mem {R : α → Prop} {history : List α} (h : Always (fun e _ ↦ R e) history)
    {e : α} (he : e ∈ history) : R e := by
  obtain ⟨later, past, rfl⟩ := List.append_of_mem he
  exact h.at

theorem Always.mono {history : List α} (h : Always P history)
    (himp : ∀ e past, P e past → P' e past) : Always P' history := by
  induction history with
  | nil => trivial
  | cons e past ih => exact ⟨himp e past h.1, ih h.2⟩

/-- **Adding harmless events.** -/
theorem Always.adds (h : Always P old) (hadds : Adds Q old new) (himp : ∀ e past, Q e → P e past) :
    Always P new := by
  obtain ⟨added, rfl, hQ⟩ := hadds
  induction added with
  | nil => exact h
  | cons e added ih =>
    have hrest := ih fun e' he' ↦ hQ e' (List.mem_cons_of_mem e he')
    exact ⟨himp e _ (hQ e List.mem_cons_self), hrest⟩

/-- **Adding events that keep something true of the past**, and satisfy `P` because of it. -/
theorem Always.adds_while (h : Always P old) (J : List α → Prop) (hJ : J old)
    (hadds : Adds Q old new) (hstep : ∀ e past, Q e → J past → P e past ∧ J (e :: past)) :
    Always P new ∧ J new := by
  obtain ⟨added, rfl, hQ⟩ := hadds
  induction added with
  | nil => exact ⟨h, hJ⟩
  | cons e added ih =>
    obtain ⟨halways, hpast⟩ := ih fun e' he' ↦ hQ e' (List.mem_cons_of_mem e he')
    obtain ⟨hP, hJ'⟩ := hstep e _ (hQ e List.mem_cons_self) hpast
    exact ⟨⟨hP, halways⟩, hJ'⟩

end Trace
