import HookKit.Lib.LittleEndian

/-!
# Computations that must not fail

A computation in `Option` fails where the program would do something that has no meaning.
`Safe o Q` says that it does not, and that its result satisfies `Q`; the rules below prove it by
walking along the computation.
-/

set_option autoImplicit false

namespace Checked

variable {α β : Type} {o : Option α} {P Q : α → Prop} {R : β → Prop} {f : α → Option β}

/-- The computation has a result, and the result satisfies `Q`. -/
def Safe (o : Option α) (Q : α → Prop) : Prop := ∃ a, o = some a ∧ Q a

theorem Safe.some {a : α} (h : Q a) : Safe (some a) Q := ⟨a, rfl, h⟩

theorem Safe.bind (h : Safe o P) (hf : ∀ a, P a → Safe (f a) R) : Safe (o >>= f) R := by
  obtain ⟨a, rfl, ha⟩ := h
  exact hf a ha

/-- A step of which the rest remembers what was computed. -/
theorem Safe.step (h : Safe o P) (hf : ∀ a, o = Option.some a → P a → Safe (f a) R) :
    Safe (o >>= f) R := by
  obtain ⟨a, rfl, ha⟩ := h
  exact hf a rfl ha

theorem Safe.mono (h : Safe o P) (himp : ∀ a, P a → Q a) : Safe o Q :=
  let ⟨a, ha, hP⟩ := h
  ⟨a, ha, himp a hP⟩

theorem Safe.ne_none (h : Safe o Q) : o ≠ none := by
  obtain ⟨a, rfl, -⟩ := h
  exact nofun

/-- What the result is, if there is one. -/
theorem Safe.of_eq {a : α} (h : Safe o Q) (heq : o = Option.some a) : Q a := by
  obtain ⟨b, hb, hQ⟩ := h
  cases heq.symm.trans hb
  exact hQ

theorem Safe.ite {c : Prop} [Decidable c] {o₁ o₂ : Option α} (h₁ : c → Safe o₁ Q)
    (h₂ : ¬ c → Safe o₂ Q) : Safe (if c then o₁ else o₂) Q := by
  split
  · exact h₁ ‹_›
  · exact h₂ ‹_›

/-- A loop all of whose steps have a result. -/
theorem mapM_eq_some {g : α → β} {xs : List α} (h : ∀ x ∈ xs, f x = some (g x)) :
    xs.mapM f = some (xs.map g) := by
  induction xs with
  | nil => rfl
  | cons x xs ih =>
    rw [List.mapM_cons, h x List.mem_cons_self, ih fun y hy ↦ h y (List.mem_cons_of_mem x hy)]
    rfl

/-- A loop all of whose steps are safe. -/
theorem Safe.mapM {xs : List α} (h : ∀ x ∈ xs, Safe (f x) R) :
    Safe (xs.mapM f) fun ys ↦ ys.length = xs.length ∧ ∀ y ∈ ys, R y := by
  induction xs with
  | nil => exact .some ⟨rfl, nofun⟩
  | cons x xs ih =>
    rw [List.mapM_cons]
    refine (h x List.mem_cons_self).bind fun y hy ↦ ?_
    refine (ih fun z hz ↦ h z (List.mem_cons_of_mem x hz)).bind fun ys ⟨hlength, hys⟩ ↦ .some ?_
    refine ⟨congrArg (· + 1) hlength, fun z hz ↦ ?_⟩
    rcases List.mem_cons.mp hz with rfl | hz
    · exact hy
    · exact hys z hz

/-- A loop with a step that fails. -/
theorem mapM_eq_none {x : α} {xs : List α} (hx : x ∈ xs) (h : f x = none) : xs.mapM f = none := by
  induction xs with
  | nil => cases hx
  | cons y xs ih =>
    rw [List.mapM_cons]
    rcases List.mem_cons.mp hx with rfl | hx
    · rw [h]
      rfl
    · cases hy : f y with
      | none => rfl
      | some _ =>
        rw [ih hx]
        rfl

open LittleEndian

/-- Reading a number inside the bytes. -/
theorem Safe.read {count position : Nat} {bytes : List (BitVec 8)}
    (h : position + count ≤ bytes.length) : Safe (readLE count bytes position) (· < 256 ^ count) :=
  readLE_some h

/-- Copying bytes from inside the bytes. -/
theorem Safe.copy {count position : Nat} {bytes : List (BitVec 8)}
    (h : position + count ≤ bytes.length) :
    Safe (readAt count bytes position) (·.length = count) := by
  rw [readAt, if_pos h]
  exact .some (by rw [List.length_take, List.length_drop]; omega)

end Checked
