import Mathlib.Data.List.Basic

/-!
# A cache with a fixed number of slots

A new entry goes into the first slot that is free, and when none is, into the slot whose turn it is.

* `RoundRobin`, `find?`, `put` — the slots, the first entry of a kind, and a new entry.
* `All`, `All.put`, `All.find?` — what holds of all entries still does after a put, and holds of
  what is found.
-/

set_option autoImplicit false

/-- The slots of a cache, and the slot whose turn it is. -/
structure RoundRobin (size : Nat) (α : Type) where
  slots : List (Option α)
  sized : slots.length = size
  next : Nat

namespace RoundRobin

variable {size : Nat} {α : Type}

/-- A cache with no entries. -/
def empty (size : Nat) (α : Type) : RoundRobin size α :=
  ⟨List.replicate size none, List.length_replicate, 0⟩

/-- The first entry of a kind. -/
def find? (cache : RoundRobin size α) (p : α → Bool) : Option α :=
  cache.slots.findSome? fun slot ↦ slot.filter p

/-- Put an entry into a slot that is free, or is freed for it.  An entry that there is no memory for
is `none`; its slot is free then. -/
def put (cache : RoundRobin size α) (entry : Option α) : RoundRobin size α :=
  match cache.slots.findIdx? Option.isNone with
  | some free =>
    { cache with
      slots := cache.slots.set free entry
      sized := List.length_set.trans cache.sized }
  | none =>
    let victim := cache.next % size
    { slots := cache.slots.set victim entry
      sized := List.length_set.trans cache.sized
      next := (victim + 1) % size }

/-- Something holds of all entries. -/
def All (P : α → Prop) (cache : RoundRobin size α) : Prop := ∀ a, some a ∈ cache.slots → P a

variable {P : α → Prop} {cache : RoundRobin size α}

theorem All.empty (size : Nat) (P : α → Prop) : All P (RoundRobin.empty size α) := by
  intro a ha
  cases List.eq_of_mem_replicate ha

theorem All.put (h : All P cache) {entry : Option α} (hentry : ∀ a, entry = some a → P a) :
    All P (cache.put entry) := by
  have hset : ∀ i a, some a ∈ cache.slots.set i entry → P a := fun i a ha ↦
    (List.mem_or_eq_of_mem_set ha).elim (h a) fun heq ↦ hentry a heq.symm
  intro a ha
  rw [RoundRobin.put] at ha
  split at ha <;> exact hset _ a ha

/-- What is found is an entry, and of the kind. -/
theorem All.find? (h : All P cache) {p : α → Bool} {a : α} (ha : cache.find? p = some a) :
    P a ∧ p a = true := by
  obtain ⟨slot, hslot, hfilter⟩ := List.exists_of_findSome?_eq_some ha
  obtain ⟨rfl, hp⟩ := Option.filter_eq_some_iff.mp hfilter
  exact ⟨h a hslot, hp⟩

end RoundRobin
