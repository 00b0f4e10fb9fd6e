import Mathlib.Data.List.Basic
import Mathlib.Order.Lattice

/-!
# Slots in a row

Slots of one size stand one behind the other from a base on.

* `start`, `stop` — where a slot begins, and where the row ends.
* `start_add_size_le`, `apart` — a slot lies inside the row, and two of them do not overlap.
* `isStart_iff` — the starts of slots are what a division by the size recognises.
* `pairwise_apart` — starts that are all different belong to slots that do not overlap.
* `Least` — the index with the least key among those that are eligible, found from left to right.
-/

set_option autoImplicit false

/-- A row of slots. -/
structure Slots where
  base : Nat
  size : Nat
  count : Nat
  size_pos : 0 < size

namespace Slots

variable (s : Slots)

/-- Where a slot begins. -/
def start (i : Nat) : Nat := s.base + i * s.size

/-- Where the row ends. -/
def stop : Nat := s.base + s.size * s.count

/-- A slot begins at the address. -/
def IsStart (a : Nat) : Prop := ∃ i < s.count, a = s.start i

variable {s}

theorem base_le_start (i : Nat) : s.base ≤ s.start i := Nat.le_add_right _ _

/-- A slot ends before the next one begins. -/
theorem start_add_size_le_start {i j : Nat} (h : i < j) : s.start i + s.size ≤ s.start j := by
  have hrow : (i + 1) * s.size ≤ j * s.size := Nat.mul_le_mul_right _ h
  rw [Nat.succ_mul] at hrow
  rw [start, start]
  omega

theorem start_count : s.start s.count = s.stop := by rw [start, stop, Nat.mul_comm]

theorem start_add_size_le {i : Nat} (h : i < s.count) : s.start i + s.size ≤ s.stop := by
  rw [← start_count]
  exact start_add_size_le_start h

theorem start_lt_stop {i : Nat} (h : i < s.count) : s.start i < s.stop := by
  have := start_add_size_le h
  have := s.size_pos
  omega

theorem apart {i j : Nat} (h : i ≠ j) :
    s.start i + s.size ≤ s.start j ∨ s.start j + s.size ≤ s.start i := by
  rcases Nat.lt_or_gt_of_ne h with hlt | hgt
  · exact .inl (start_add_size_le_start hlt)
  · exact .inr (start_add_size_le_start hgt)

theorem start_inj {i j : Nat} (h : s.start i = s.start j) : i = j := by
  by_contra hne
  have := s.size_pos
  rcases s.apart hne with hle | hle <;> omega

/-- **Recognising a slot.** -/
theorem isStart_iff {a : Nat} : s.IsStart a ↔
    s.base ≤ a ∧ (a - s.base) % s.size = 0 ∧ (a - s.base) / s.size < s.count := by
  constructor
  · rintro ⟨i, hi, rfl⟩
    rw [start, Nat.add_sub_cancel_left, Nat.mul_mod_left, Nat.mul_div_cancel _ s.size_pos]
    exact ⟨Nat.le_add_right _ _, rfl, hi⟩
  · rintro ⟨hbase, hmod, hindex⟩
    refine ⟨_, hindex, ?_⟩
    rw [start, Nat.div_mul_cancel (Nat.dvd_of_mod_eq_zero hmod)]
    omega

/-- **Different starts, separate slots.** -/
theorem pairwise_apart {starts : List Nat} (hnodup : starts.Nodup)
    (hstarts : ∀ a ∈ starts, s.IsStart a) :
    starts.Pairwise fun a b ↦ a + s.size ≤ b ∨ b + s.size ≤ a := by
  refine hnodup.imp_of_mem fun {a b} ha hb hne ↦ ?_
  obtain ⟨i, -, rfl⟩ := hstarts a ha
  obtain ⟨j, -, rfl⟩ := hstarts b hb
  exact apart fun hij ↦ hne (congrArg s.start hij)

/-! ## The least key -/

variable {κ : Type*} [LinearOrder κ] {eligible : Nat → Prop} {key : Nat → κ} {bound i : Nat}

/-- An eligible index below the bound, such that none of the others has a smaller key. -/
structure Least (eligible : Nat → Prop) (key : Nat → κ) (bound i : Nat) : Prop where
  lt : i < bound
  chosen : eligible i
  least : ∀ j < bound, eligible j → key i ≤ key j

/-- An index that is not eligible, or has no smaller key, is passed over. -/
theorem Least.keep (h : Least eligible key bound i)
    (hnext : eligible bound → key i ≤ key bound) : Least eligible key (bound + 1) i where
  lt := Nat.lt_succ_of_lt h.lt
  chosen := h.chosen
  least := fun j hj hej ↦ by
    rcases Nat.lt_succ_iff_lt_or_eq.mp hj with hlt | rfl
    · exact h.least j hlt hej
    · exact hnext hej

/-- An index with a smaller key takes over. -/
theorem Least.replace (h : Least eligible key bound i) (hnext : eligible bound)
    (hlt : key bound < key i) : Least eligible key (bound + 1) bound where
  lt := Nat.lt_succ_self _
  chosen := hnext
  least := fun j hj hej ↦ by
    rcases Nat.lt_succ_iff_lt_or_eq.mp hj with hj | rfl
    · exact le_of_lt (lt_of_lt_of_le hlt (h.least j hj hej))
    · exact le_rfl

/-- The first eligible index. -/
theorem Least.first (hnone : ∀ j < bound, ¬ eligible j) (hnext : eligible bound) :
    Least eligible key (bound + 1) bound where
  lt := Nat.lt_succ_self _
  chosen := hnext
  least := fun j hj hej ↦ by
    rcases Nat.lt_succ_iff_lt_or_eq.mp hj with hj | rfl
    · exact absurd hej (hnone j hj)
    · exact le_rfl

end Slots
