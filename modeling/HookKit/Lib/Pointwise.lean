import Mathlib.Data.List.Forall2

/-!
# Lists that change element by element

A step that changes the elements of a list in place relates the list before to the list after by
`List.Forall₂ R`, where `R` says what may become of one element.

* `comp`, `trans`, `set` — steps compose, and setting one element is a step.
* `mem_right`, `getElem?_right` — every element afterwards comes from one before.
* `map_eq` — what no element changes, the list does not change.
-/

set_option autoImplicit false

namespace Pointwise

variable {α β γ : Type*} {R : α → α → Prop} {l l₁ l₂ : List α}

theorem refl (hR : ∀ x, R x x) (l : List α) : List.Forall₂ R l l :=
  List.forall₂_same.mpr fun x _ ↦ hR x

/-- Two steps between lists of different things. -/
theorem comp {S : α → β → Prop} {T : β → γ → Prop} {U : α → γ → Prop} {m : List β} {n : List γ}
    (hcomp : ∀ x y z, S x y → T y z → U x z) (h : List.Forall₂ S l m) (h' : List.Forall₂ T m n) :
    List.Forall₂ U l n := by
  induction h generalizing n with
  | nil => cases h'; exact .nil
  | cons hxy _ ih =>
    cases h' with
    | cons hyz hrest => exact .cons (hcomp _ _ _ hxy hyz) (ih hrest)

theorem trans (htrans : ∀ x y z, R x y → R y z → R x z) (h : List.Forall₂ R l l₁)
    (h' : List.Forall₂ R l₁ l₂) : List.Forall₂ R l l₂ :=
  comp htrans h h'

/-- Setting one element. -/
theorem set (hR : ∀ x, R x x) {i : Nat} {x y : α} (hx : l[i]? = some x) (hxy : R x y) :
    List.Forall₂ R l (l.set i y) := by
  induction l generalizing i with
  | nil => exact .nil
  | cons z rest ih =>
    cases i with
    | zero =>
      cases hx
      exact .cons hxy (refl hR rest)
    | succ i => exact .cons (hR z) (ih hx)

theorem mem_right {S : α → β → Prop} {m : List β} (h : List.Forall₂ S l m) {y : β} (hy : y ∈ m) :
    ∃ x ∈ l, S x y := by
  induction h with
  | nil => exact absurd hy List.not_mem_nil
  | cons hxy _ ih =>
    rcases List.mem_cons.mp hy with rfl | hy
    · exact ⟨_, List.mem_cons_self, hxy⟩
    · obtain ⟨x, hx, hR⟩ := ih hy
      exact ⟨x, List.mem_cons_of_mem _ hx, hR⟩

theorem mem_left {S : α → β → Prop} {m : List β} (h : List.Forall₂ S l m) {x : α} (hx : x ∈ l) :
    ∃ y ∈ m, S x y :=
  mem_right h.flip hx

theorem getElem?_left (h : List.Forall₂ R l l₁) {i : Nat} {x : α} (hx : l[i]? = some x) :
    ∃ y, l₁[i]? = some y ∧ R x y := by
  induction h generalizing i with
  | nil => cases hx
  | cons hxy _ ih =>
    cases i with
    | zero =>
      cases hx
      exact ⟨_, rfl, hxy⟩
    | succ i => exact ih hx

theorem getElem?_right (h : List.Forall₂ R l l₁) {i : Nat} {y : α} (hy : l₁[i]? = some y) :
    ∃ x, l[i]? = some x ∧ R x y :=
  getElem?_left h.flip hy

/-- What no element changes. -/
theorem map_eq (h : List.Forall₂ R l l₁) (f : α → β) (hf : ∀ x y, R x y → f y = f x) :
    l₁.map f = l.map f := by
  induction h with
  | nil => rfl
  | cons hxy _ ih => rw [List.map_cons, List.map_cons, hf _ _ hxy, ih]

end Pointwise
