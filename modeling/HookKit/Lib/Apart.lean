import Mathlib.Data.List.Basic
import Mathlib.Logic.Function.Basic

/-!
# Lists without common elements

A family of lists in which no element occurs twice, neither within one list nor across two of them:
every element is in at most one place.

* `Apart.mono` — shorter lists are still apart.
* `Apart.append` — an element that was nowhere may be put anywhere.
* `Apart.move` — elements may be moved from one list to another.
-/

set_option autoImplicit false

variable {ι α : Type*}

/-- Every element occurs at most once in all the lists together. -/
structure Apart (lists : ι → List α) : Prop where
  nodup : ∀ i, (lists i).Nodup
  disjoint : ∀ i j, i ≠ j → ∀ x ∈ lists i, x ∉ lists j

namespace Apart

variable {lists lists' : ι → List α} {i j : ι} {x : α}

theorem mono (h : Apart lists) (hsub : ∀ i, (lists' i).Sublist (lists i)) : Apart lists' :=
  ⟨fun i ↦ (h.nodup i).sublist (hsub i),
    fun i j hne x hi hj ↦ h.disjoint i j hne x ((hsub i).subset hi) ((hsub j).subset hj)⟩

variable [DecidableEq ι]

/-- A list is replaced by a part of it. -/
theorem update_sublist (h : Apart lists) (i : ι) {l : List α} (hsub : l.Sublist (lists i)) :
    Apart (Function.update lists i l) := by
  refine h.mono fun j ↦ ?_
  by_cases hj : j = i
  · subst hj
    rw [Function.update_self]
    exact hsub
  · rw [Function.update_of_ne hj]

theorem append (h : Apart lists) (i : ι) {l : List α} (hnodup : l.Nodup)
    (hnew : ∀ x ∈ l, ∀ j, x ∉ lists j) : Apart (Function.update lists i (lists i ++ l)) := by
  constructor
  · intro j
    by_cases hj : j = i
    · subst hj
      rw [Function.update_self]
      refine List.nodup_append.mpr ⟨h.nodup j, hnodup, fun x hx y hy hxy ↦ ?_⟩
      subst hxy
      exact hnew x hy j hx
    · rw [Function.update_of_ne hj]
      exact h.nodup j
  · intro j k hne x hx hx'
    by_cases hj : j = i
    · subst hj
      rw [Function.update_self] at hx
      rw [Function.update_of_ne (Ne.symm hne)] at hx'
      rcases List.mem_append.mp hx with hx | hx
      · exact h.disjoint j k hne x hx hx'
      · exact hnew x hx k hx'
    · rw [Function.update_of_ne hj] at hx
      by_cases hk : k = i
      · subst hk
        rw [Function.update_self] at hx'
        rcases List.mem_append.mp hx' with hx' | hx'
        · exact h.disjoint j k hne x hx hx'
        · exact hnew x hx' j hx
      · rw [Function.update_of_ne hk] at hx'
        exact h.disjoint j k hne x hx hx'

/-- Some elements of the list at `i` go to the list at `j`, and the rest of them are dropped. -/
theorem move (h : Apart lists) (hne : j ≠ i) {moved : List α} (hsub : moved.Sublist (lists i)) :
    Apart (Function.update (Function.update lists i []) j (lists j ++ moved)) := by
  have hdropped := h.update_sublist i (List.nil_sublist _)
  have hmoved := hdropped.append j ((h.nodup i).sublist hsub) fun x hx k hk ↦ by
    by_cases hki : k = i
    · subst hki
      rw [Function.update_self] at hk
      exact absurd hk List.not_mem_nil
    · rw [Function.update_of_ne hki] at hk
      exact h.disjoint i k (Ne.symm hki) x (hsub.subset hx) hk
  rwa [Function.update_of_ne hne] at hmoved

end Apart
