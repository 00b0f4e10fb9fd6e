import Mathlib.Data.List.DropRight
import Mathlib.Data.List.Perm.Basic
import Mathlib.Order.Lattice

/-!
# Insertion from the right

The insertion sort that takes the elements of an array from left to right and moves each one left
past the greater ones.

* `insertLast`, `insertionSort` — one insertion, and the loop.
* `insertionSort_perm`, `insertionSort_pairwise` — it sorts, and elements with equal keys stay in
  the order of the input.
-/

set_option autoImplicit false

namespace StableSort

variable {α κ : Type*} [LinearOrder κ] {key : α → κ} {before : α → α → Prop}
    {x : α} {xs ys : List α}

/-- Moving `x` left from the end of the list, past the elements with a greater key. -/
def insertLast (key : α → κ) (xs : List α) (x : α) : List α :=
  xs.rdropWhile (fun y ↦ key x < key y) ++ x :: xs.rtakeWhile (fun y ↦ key x < key y)

/-- Inserting the elements one after the other. -/
def insertionSort (key : α → κ) (xs : List α) : List α := xs.foldl (insertLast key) []

/-- The order of a stable sort: by the key, and as before where the keys are equal. -/
def Precedes (key : α → κ) (before : α → α → Prop) (a b : α) : Prop :=
  key a < key b ∨ key a = key b ∧ before a b

theorem Precedes.le {a b : α} (h : Precedes key before a b) : key a ≤ key b := by
  rcases h with h | ⟨h, -⟩
  · exact h.le
  · exact h.le

theorem insertLast_perm (key : α → κ) (xs : List α) (x : α) :
    (insertLast key xs x).Perm (x :: xs) := by
  have hcut := List.rdropWhile_append_rtakeWhile (p := fun y ↦ key x < key y) (l := xs)
  exact List.perm_middle.trans (List.Perm.of_eq (congrArg (x :: ·) hcut))

/-- The elements an insertion moves `x` past have greater keys. -/
theorem mem_rtakeWhile {y : α} (h : y ∈ xs.rtakeWhile fun y ↦ key x < key y) : key x < key y := by
  simpa using List.mem_rtakeWhile_imp h

/-- In a sorted list all the elements that `x` is not moved past have keys that are not greater. -/
theorem mem_rdropWhile (hsorted : xs.Pairwise fun a b ↦ key a ≤ key b) {y : α}
    (h : y ∈ xs.rdropWhile fun y ↦ key x < key y) : key y ≤ key x := by
  induction xs using List.reverseRecOn with
  | nil => cases h
  | append_singleton rest z ih =>
    rw [List.rdropWhile_concat] at h
    obtain ⟨hrest, -, hz⟩ := List.pairwise_append.mp hsorted
    split at h
    · exact ih hrest h
    · rename_i hstop
      have hle : key z ≤ key x := by simpa using hstop
      rcases List.mem_append.mp h with hy | hy
      · exact (hz y hy z (List.mem_singleton_self z)).trans hle
      · rwa [List.mem_singleton.mp hy]

/-- Inserting an element that comes after all the elements of the list. -/
theorem insertLast_pairwise (hsorted : xs.Pairwise (Precedes key before))
    (hlast : ∀ y ∈ xs, before y x) : (insertLast key xs x).Pairwise (Precedes key before) := by
  have hkeys : xs.Pairwise fun a b ↦ key a ≤ key b := hsorted.imp Precedes.le
  have hparts := hsorted
  rw [← List.rdropWhile_append_rtakeWhile (p := fun y ↦ key x < key y) (l := xs)] at hparts
  obtain ⟨hleft, hright, hcross⟩ := List.pairwise_append.mp hparts
  refine List.pairwise_append.mpr ⟨hleft, List.pairwise_cons.mpr ⟨fun y hy ↦ ?_, hright⟩, ?_⟩
  · exact .inl (mem_rtakeWhile hy)
  · intro y hy z hz
    rcases List.mem_cons.mp hz with rfl | hz
    · have hbefore : before y z := hlast y ((List.rdropWhile_prefix _ _).subset hy)
      rcases (mem_rdropWhile hkeys hy).lt_or_eq with hlt | heq
      · exact .inl hlt
      · exact .inr ⟨heq, hbefore⟩
    · exact hcross y hy z hz

theorem foldl_perm (xs ys : List α) : (xs.foldl (insertLast key) ys).Perm (xs ++ ys) := by
  induction xs generalizing ys with
  | nil => exact .refl _
  | cons x rest ih =>
    calc (rest.foldl (insertLast key) (insertLast key ys x)).Perm
          (rest ++ insertLast key ys x) := ih _
      _ |>.Perm (rest ++ x :: ys) := (insertLast_perm key ys x).append_left rest
      _ |>.Perm (x :: rest ++ ys) := List.perm_middle

theorem insertionSort_perm (key : α → κ) (xs : List α) : (insertionSort key xs).Perm xs := by
  have h : (insertionSort key xs).Perm (xs ++ []) := foldl_perm xs []
  rwa [List.append_nil] at h

theorem foldl_pairwise (hxs : xs.Pairwise before) (hys : ys.Pairwise (Precedes key before))
    (hcross : ∀ y ∈ ys, ∀ x ∈ xs, before y x) :
    (xs.foldl (insertLast key) ys).Pairwise (Precedes key before) := by
  induction xs generalizing ys with
  | nil => exact hys
  | cons x rest ih =>
    obtain ⟨hx, hrest⟩ := List.pairwise_cons.mp hxs
    refine ih hrest (insertLast_pairwise hys fun y hy ↦ hcross y hy x List.mem_cons_self) ?_
    intro y hy z hz
    rcases List.mem_cons.mp ((insertLast_perm key ys x).subset hy) with rfl | hy
    · exact hx z hz
    · exact hcross y hy z (List.mem_cons_of_mem x hz)

/-- The sort is stable. -/
theorem insertionSort_pairwise (hxs : xs.Pairwise before) :
    (insertionSort key xs).Pairwise (Precedes key before) :=
  foldl_pairwise hxs .nil nofun

end StableSort
