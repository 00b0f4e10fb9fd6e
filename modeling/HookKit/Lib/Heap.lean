import Mathlib.Logic.Function.Basic
import Mathlib.Data.List.Basic

/-!
# Heaps of blocks

A heap gives some addresses a block.  An address that has been handed out is never handed out again,
so that it names one allocation.

* `Heap.Grows h h' owned` — from `h` to `h'` only the blocks `owned` have changed, all of them new.
* `Heap.Keeps read v h owned` — reading gives `v`, and it depends on the blocks `owned` only.
-/

set_option autoImplicit false

/-- A heap.  Address `0` is the null pointer. -/
structure Heap (β : Type) where
  blocks : Nat → Option β
  next : Nat
  null : blocks 0 = none
  positive : 0 < next
  fresh : ∀ a, next ≤ a → blocks a = none

namespace Heap

variable {β γ : Type} {h h₁ h₂ h₃ g : Heap β} {owned owned₁ owned₂ : List Nat}

def empty : Heap β := ⟨fun _ ↦ none, 1, rfl, Nat.one_pos, fun _ _ ↦ rfl⟩

/-- A new block. -/
def alloc (h : Heap β) (b : β) : Heap β where
  blocks := Function.update h.blocks h.next (some b)
  next := h.next + 1
  null := by rw [Function.update_of_ne (Nat.ne_of_lt h.positive), h.null]
  positive := h.next.succ_pos
  fresh a ha := by rw [Function.update_of_ne (by omega), h.fresh a (by omega)]

/-- What a block holds from now on. -/
def write (h : Heap β) (a : Nat) (b : β) : Heap β where
  blocks x := if x = a then (h.blocks a).map fun _ ↦ b else h.blocks x
  next := h.next
  null := by
    split
    · rename_i ha
      rw [← ha, h.null]
      rfl
    · exact h.null
  positive := h.positive
  fresh x hx := by
    split
    · rename_i ha
      rw [← ha, h.fresh x hx]
      rfl
    · exact h.fresh x hx

theorem write_self {a : Nat} (ha : (h.blocks a).isSome) (b : β) :
    (h.write a b).blocks a = some b := by
  obtain ⟨old, hold⟩ := Option.isSome_iff_exists.mp ha
  show (if a = a then (h.blocks a).map fun _ ↦ b else h.blocks a) = some b
  rw [if_pos rfl, hold]
  rfl

theorem write_of_ne (h : Heap β) {a x : Nat} (b : β) (hne : x ≠ a) :
    (h.write a b).blocks x = h.blocks x :=
  if_neg hne

/-- Give back a block; nothing happens at the null pointer. -/
def free (h : Heap β) (a : Nat) : Heap β where
  blocks x := if x = a then none else h.blocks x
  next := h.next
  null := by rw [h.null, ite_self]
  positive := h.positive
  fresh x hx := by rw [h.fresh x hx, ite_self]

def freeAll (h : Heap β) (addresses : List Nat) : Heap β := addresses.foldl free h

theorem freeAll_blocks (h : Heap β) (addresses : List Nat) (a : Nat) :
    (h.freeAll addresses).blocks a = if a ∈ addresses then none else h.blocks a := by
  induction addresses generalizing h with
  | nil => rw [if_neg List.not_mem_nil]; rfl
  | cons b rest ih =>
    rw [freeAll, List.foldl_cons]
    show ((h.free b).freeAll rest).blocks a = _
    rw [ih, free]
    by_cases hb : a = b
    · subst hb
      simp
    · simp [hb]

theorem freeAll_next (h : Heap β) (addresses : List Nat) : (h.freeAll addresses).next = h.next := by
  induction addresses generalizing h with
  | nil => rfl
  | cons b rest ih => exact ih (h.free b)

/-! ## Growth -/

/-- Only some new blocks have changed. -/
structure Grows (h h' : Heap β) (owned : List Nat) : Prop where
  next : h.next ≤ h'.next
  new : ∀ a ∈ owned, a = 0 ∨ h.next ≤ a ∧ a < h'.next
  same : ∀ a, a ∉ owned → h'.blocks a = h.blocks a

theorem Grows.refl (h : Heap β) : Grows h h [] := ⟨Nat.le_refl _, nofun, fun _ _ ↦ rfl⟩

/-- The null pointer is no block. -/
theorem Grows.nothing (h : Heap β) : Grows h h [0] :=
  ⟨Nat.le_refl _, fun _ ha ↦ .inl (List.mem_singleton.mp ha), fun _ _ ↦ rfl⟩

theorem Grows.alloc (h : Heap β) (b : β) : Grows h (h.alloc b) [h.next] where
  next := Nat.le_succ _
  new a ha := by
    rw [List.mem_singleton.mp ha]
    exact .inr ⟨Nat.le_refl _, Nat.lt_succ_self _⟩
  same a ha := Function.update_of_ne (fun heq ↦ ha (List.mem_singleton.mpr heq)) _ _

/-- Old blocks stay as they are. -/
theorem Grows.old (hgrows : Grows h h₁ owned) {a : Nat} (ha : a < h.next) :
    h₁.blocks a = h.blocks a := by
  by_cases hmem : a ∈ owned
  · rcases hgrows.new a hmem with rfl | hnew
    · rw [h.null, h₁.null]
    · omega
  · exact hgrows.same a hmem

theorem Grows.trans (h₁₂ : Grows h₁ h₂ owned₁) (h₂₃ : Grows h₂ h₃ owned₂) :
    Grows h₁ h₃ (owned₁ ++ owned₂) where
  next := Nat.le_trans h₁₂.next h₂₃.next
  new a ha := by
    have hnext₁ := h₁₂.next
    have hnext₂ := h₂₃.next
    rcases List.mem_append.mp ha with ha | ha
    · rcases h₁₂.new a ha with hnull | hnew
      · exact .inl hnull
      · exact .inr (by omega)
    · rcases h₂₃.new a ha with hnull | hnew
      · exact .inl hnull
      · exact .inr (by omega)
  same a ha := by
    rw [List.mem_append, not_or] at ha
    rw [h₂₃.same a ha.2, h₁₂.same a ha.1]

/-- The order in which the blocks are listed does not matter. -/
theorem Grows.congr (hgrows : Grows h h₁ owned₁) (hmem : ∀ a, a ∈ owned₁ ↔ a ∈ owned₂) :
    Grows h h₁ owned₂ :=
  ⟨hgrows.next, fun a ha ↦ hgrows.new a ((hmem a).mpr ha),
    fun a ha ↦ hgrows.same a fun hin ↦ ha ((hmem a).mp hin)⟩

theorem Grows.write (hgrows : Grows h h₁ owned) {a : Nat} (ha : a ∈ owned) (b : β) :
    Grows h (h₁.write a b) owned :=
  ⟨hgrows.next, hgrows.new, fun x hx ↦ by
    have hne : x ≠ a := by
      rintro rfl
      exact hx ha
    rw [write_of_ne h₁ b hne, hgrows.same x hx]⟩

/-- Giving back what is new leaves nothing behind. -/
theorem Grows.freeAll (hgrows : Grows h h₁ owned) : Grows h (h₁.freeAll owned) [] where
  next := by
    rw [freeAll_next]
    exact hgrows.next
  new := nofun
  same a _ := by
    rw [freeAll_blocks]
    split
    · rename_i hmem
      rcases hgrows.new a hmem with rfl | hnew
      · rw [h.null]
      · rw [h.fresh a hnew.1]
    · exact hgrows.same a ‹_›

theorem Grows.lt (hgrows : Grows h h₁ owned) {a : Nat} (ha : a ∈ owned) : a < h₁.next := by
  rcases hgrows.new a ha with rfl | hnew
  · exact h₁.positive
  · exact hnew.2

/-- The new blocks were nobody's. -/
theorem Grows.unused (hgrows : Grows h h₁ owned) {a : Nat} (ha : a ∈ owned) :
    h.blocks a = none := by
  rcases hgrows.new a ha with rfl | hnew
  · exact h.null
  · exact h.fresh a hnew.1

/-! ## Reading -/

/-- Reading gives a value, whatever stands in other blocks. -/
def Keeps (read : Heap β → Option γ) (v : γ) (h : Heap β) (owned : List Nat) : Prop :=
  ∀ g : Heap β, (∀ a ∈ owned, g.blocks a = h.blocks a) → read g = some v

variable {read : Heap β → Option γ} {v : γ}

theorem Keeps.now (hkeeps : Keeps read v h owned) : read h = some v := hkeeps h fun _ _ ↦ rfl

/-- What happens to other blocks does not matter. -/
theorem Keeps.mono (hkeeps : Keeps read v h owned)
    (hsame : ∀ a ∈ owned, h₁.blocks a = h.blocks a) : Keeps read v h₁ owned :=
  fun g hg ↦ hkeeps g fun a ha ↦ (hg a ha).trans (hsame a ha)

theorem Keeps.weaken (hkeeps : Keeps read v h owned₁) (hsub : ∀ a ∈ owned₁, a ∈ owned₂) :
    Keeps read v h owned₂ :=
  fun g hg ↦ hkeeps g fun a ha ↦ hg a (hsub a ha)

/-- What has been read before more is allocated can still be read. -/
theorem Keeps.grows (hkeeps : Keeps read v h₁ owned₁) (h₀₁ : Grows h h₁ owned₁)
    (h₁₂ : Grows h₁ h₂ owned₂) : Keeps read v h₂ owned₁ := by
  refine hkeeps.mono fun a ha ↦ ?_
  rcases h₀₁.new a ha with rfl | hnew
  · rw [h₁.null, h₂.null]
  · exact h₁₂.old hnew.2

end Heap
