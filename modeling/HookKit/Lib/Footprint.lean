import Mathlib.Data.Set.Basic

/-!
# Footprints

A run works on a state that consists of places, and keeps a history of what it has done.  Its
footprint is in order when every place that has changed is one that an event of the history stands
for.

* `Accounted` — every change is accounted for.
* `Accounted.trans`, `Accounted.quiet` — one part of a run after the other, and a part that changes
  nothing.
-/

set_option autoImplicit false

namespace Footprint

variable {α β : Type*} {E : Type*}

/-- Nothing is forgotten, and every place that differs is one that an event stands for. -/
structure Accounted (stands : E → α → Prop) (old new : List E) (state state' : α → β) :
    Prop where
  grows : old ⊆ new
  changed : ∀ a, state' a ≠ state a → ∃ e ∈ new, stands e a

namespace Accounted

variable {stands stands' : E → α → Prop} {old mid new : List E} {state state₁ state' : α → β}

theorem refl (old : List E) (state : α → β) : Accounted stands old old state state :=
  ⟨List.Subset.refl _, fun _ h ↦ absurd rfl h⟩

theorem trans (h : Accounted stands old mid state state₁)
    (h' : Accounted stands mid new state₁ state') : Accounted stands old new state state' := by
  refine ⟨List.Subset.trans h.grows h'.grows, fun a hne ↦ ?_⟩
  by_cases hfirst : state₁ a = state a
  · rw [← hfirst] at hne
    exact h'.changed a hne
  · obtain ⟨e, he, hstands⟩ := h.changed a hfirst
    exact ⟨e, h'.grows he, hstands⟩

/-- A part of a run that changes no place. -/
theorem quiet (hgrows : old ⊆ new) (hsame : state' = state) :
    Accounted stands old new state state' :=
  ⟨hgrows, fun a h ↦ absurd (congrFun hsame a) h⟩

/-- A part of a run whose changes one event stands for. -/
theorem one (hgrows : old ⊆ new) {e : E} (he : e ∈ new)
    (hchanged : ∀ a, state' a ≠ state a → stands e a) :
    Accounted stands old new state state' :=
  ⟨hgrows, fun a hne ↦ ⟨e, he, hchanged a hne⟩⟩

/-- A place that no event stands for is as it was. -/
theorem unchanged (h : Accounted stands old new state state') {a : α}
    (ha : ∀ e ∈ new, ¬stands e a) : state' a = state a := by
  by_contra hne
  obtain ⟨e, he, hstands⟩ := h.changed a hne
  exact ha e he hstands

end Accounted

end Footprint
