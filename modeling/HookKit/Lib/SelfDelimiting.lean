import Mathlib.Data.List.Basic

/-!
# Encodings that say where they end

A byte string that is put together from several encodings can be taken apart again when each of them
says where it ends.

* `Delimits P enc` — the encodings of the values in `P` can be read off the front of anything.
* `Delimits.of_length` — encodings of one length.
* `Delimits.counted` — a block behind its length.
* `Delimits.flatten` — as many encodings as one knows there are, one after the other.
-/

set_option autoImplicit false

namespace SelfDelimiting

variable {α σ : Type*} {P : α → Prop} {enc : α → List σ}

/-- From an encoding with anything behind it, both the value and the rest can be read off. -/
def Delimits (P : α → Prop) (enc : α → List σ) : Prop :=
  ∀ ⦃x y : α⦄ ⦃r s : List σ⦄, P x → P y → enc x ++ r = enc y ++ s → x = y ∧ r = s

theorem Delimits.injective (h : Delimits P enc) {x y : α} (hx : P x) (hy : P y)
    (heq : enc x = enc y) : x = y :=
  (h hx hy (congrArg (· ++ []) heq)).1

theorem Delimits.mono {Q : α → Prop} (h : Delimits P enc) (hQ : ∀ x, Q x → P x) :
    Delimits Q enc :=
  fun _ _ _ _ hx hy heq ↦ h (hQ _ hx) (hQ _ hy) heq

/-- Encodings that all have the same length. -/
theorem Delimits.of_length {n : Nat} (hlength : ∀ x, P x → (enc x).length = n)
    (hinjective : ∀ x y, P x → P y → enc x = enc y → x = y) : Delimits P enc := by
  intro x y r s hx hy heq
  obtain ⟨hfront, hrest⟩ := List.append_inj heq ((hlength x hx).trans (hlength y hy).symm)
  exact ⟨hinjective x y hx hy hfront, hrest⟩

/-- A block behind its length. -/
theorem Delimits.counted {N : Nat → Prop} {count : Nat → List σ} (h : Delimits N count) :
    Delimits (fun block : List σ ↦ N block.length) fun block ↦ count block.length ++ block := by
  intro x y r s hx hy heq
  rw [List.append_assoc, List.append_assoc] at heq
  obtain ⟨hlength, hrest⟩ := h hx hy heq
  exact List.append_inj hrest hlength

/-- Two sequences of equally many encodings. -/
theorem Delimits.flatten (h : Delimits P enc) {xs ys : List α} {r s : List σ}
    (hx : ∀ x ∈ xs, P x) (hy : ∀ y ∈ ys, P y) (hlength : xs.length = ys.length)
    (heq : (xs.map enc).flatten ++ r = (ys.map enc).flatten ++ s) : xs = ys ∧ r = s := by
  induction xs generalizing ys with
  | nil =>
    obtain rfl := List.length_eq_zero_iff.1 hlength.symm
    exact ⟨rfl, heq⟩
  | cons x xs ih =>
    cases ys with
    | nil => cases hlength
    | cons y ys =>
      simp only [List.map_cons, List.flatten_cons, List.append_assoc] at heq
      obtain ⟨rfl, hrest⟩ := h (hx x List.mem_cons_self) (hy y List.mem_cons_self) heq
      obtain ⟨rfl, hend⟩ := ih (fun x hmem ↦ hx x (List.mem_cons_of_mem _ hmem))
        (fun y hmem ↦ hy y (List.mem_cons_of_mem _ hmem)) (Nat.succ.inj hlength) hrest
      exact ⟨rfl, hend⟩

end SelfDelimiting
