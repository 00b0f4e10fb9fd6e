import Mathlib.Data.List.Sort
import Mathlib.Order.Defs.LinearOrder

/-!
# Taking the least item that is ready, again and again

Items that need each other are put in order one at a time: of the items whose needs are already
placed, the one with the least key comes next.

* `Ready` — an item that may come next.
* `Greedy` — the orders that this procedure can leave, after some items are already placed.
* `Greedy.mem_iff`, `Greedy.nodup`, `Greedy.position` — such an order contains every item once, and
  each position holds the least item that was ready then.
* `exists_ready` — needs that go down in some rank never leave the procedure without a next item.
* `Greedy.unique` — different items with different keys leave one order only.
-/

set_option autoImplicit false

namespace GreedyOrder

variable {α κ : Type*} [LinearOrder κ]

/-- An item that is not placed, while everything it needs is. -/
structure Ready (items : List α) (needs : α → α → Prop) (placed : List α) (a : α) : Prop where
  item : a ∈ items
  unplaced : a ∉ placed
  needed : ∀ b ∈ items, needs a b → b ∈ placed

/-- The orders in which the items that are not placed yet may follow. -/
inductive Greedy (items : List α) (needs : α → α → Prop) (key : α → κ) :
    List α → List α → Prop
  | done {placed : List α} (h : ∀ a ∈ items, a ∈ placed) : Greedy items needs key placed []
  | next {placed rest : List α} {a : α} (hready : Ready items needs placed a)
      (hleast : ∀ b, Ready items needs placed b → key a ≤ key b)
      (hrest : Greedy items needs key (placed ++ [a]) rest) :
      Greedy items needs key placed (a :: rest)

variable {items placed order : List α} {needs : α → α → Prop} {key : α → κ}

namespace Greedy

/-- What is left to place is placed. -/
theorem mem_iff (h : Greedy items needs key placed order) (a : α) :
    a ∈ order ↔ a ∈ items ∧ a ∉ placed := by
  induction h with
  | done h => exact ⟨fun ha ↦ absurd ha List.not_mem_nil, fun ha ↦ absurd (h a ha.1) ha.2⟩
  | @next placed rest b hready hleast hrest ih =>
    rw [List.mem_cons, ih, List.mem_append, List.mem_singleton, not_or]
    constructor
    · rintro (rfl | ⟨hitem, hplaced, -⟩)
      · exact ⟨hready.item, hready.unplaced⟩
      · exact ⟨hitem, hplaced⟩
    · rintro ⟨hitem, hplaced⟩
      by_cases heq : a = b
      · exact .inl heq
      · exact .inr ⟨hitem, hplaced, heq⟩

theorem nodup (h : Greedy items needs key placed order) : order.Nodup := by
  induction h with
  | done h => exact .nil
  | next hready hleast hrest ih =>
    refine List.nodup_cons.2 ⟨fun hmem ↦ ?_, ih⟩
    exact ((hrest.mem_iff _).1 hmem).2 (List.mem_append_right _ List.mem_cons_self)

/-- **Every position holds the least item that is ready**, given what is placed before it. -/
theorem position (h : Greedy items needs key placed order) {k : Nat} {a : α}
    (ha : order[k]? = some a) :
    Ready items needs (placed ++ order.take k) a ∧
      ∀ b, Ready items needs (placed ++ order.take k) b → key a ≤ key b := by
  induction h generalizing k with
  | done h => cases ha
  | next hready hleast hrest ih =>
    cases k with
    | zero =>
      cases ha
      rw [List.take_zero, List.append_nil]
      exact ⟨hready, hleast⟩
    | succ k =>
      rw [List.take_succ_cons, List.append_cons]
      exact ih ha

/-- Items of different keys can only be placed in one order. -/
theorem unique (hkey : ∀ a ∈ items, ∀ b ∈ items, key a = key b → a = b) {other : List α}
    (h : Greedy items needs key placed order) (h' : Greedy items needs key placed other) :
    order = other := by
  induction h generalizing other with
  | done h =>
    cases h' with
    | done => rfl
    | next hready => exact absurd (h _ hready.item) hready.unplaced
  | next hready hleast hrest ih =>
    cases h' with
    | done h => exact absurd (h _ hready.item) hready.unplaced
    | next hready' hleast' hrest' =>
      obtain rfl := hkey _ hready.item _ hready'.item
        (le_antisymm (hleast _ hready') (hleast' _ hready))
      rw [ih hrest']

/-- Where no item needs another, the items are placed by their keys. -/
theorem of_sorted (hfree : ∀ a ∈ items, ∀ b ∈ items, ¬needs a b)
    (hmem : ∀ a, a ∈ order ↔ a ∈ items ∧ a ∉ placed)
    (hsorted : order.Pairwise fun a b ↦ key a < key b) : Greedy items needs key placed order := by
  induction order generalizing placed with
  | nil =>
    exact .done fun a ha ↦ not_not.1 fun hplaced ↦ List.not_mem_nil ((hmem a).2 ⟨ha, hplaced⟩)
  | cons a rest ih =>
    obtain ⟨hfirst, hrest⟩ := List.pairwise_cons.1 hsorted
    have ha := (hmem a).1 List.mem_cons_self
    refine .next ⟨ha.1, ha.2, fun b hb hneeds ↦ absurd hneeds (hfree a ha.1 b hb)⟩ (fun b hb ↦ ?_)
      (ih (fun b ↦ ?_) hrest)
    · rcases List.mem_cons.1 ((hmem b).2 ⟨hb.item, hb.unplaced⟩) with rfl | hmem'
      · exact le_rfl
      · exact (hfirst b hmem').le
    · rw [List.mem_append, List.mem_singleton, not_or]
      constructor
      · intro hb
        obtain ⟨hitem, hplaced⟩ := (hmem b).1 (List.mem_cons_of_mem a hb)
        refine ⟨hitem, hplaced, ?_⟩
        rintro rfl
        exact lt_irrefl _ (hfirst b hb)
      · rintro ⟨hitem, hplaced, hne⟩
        exact (List.mem_cons.1 ((hmem b).2 ⟨hitem, hplaced⟩)).resolve_left hne

end Greedy

/-- **The procedure never gets stuck** where the needs of an item have a smaller rank. -/
theorem exists_ready {rank : α → Nat}
    (hrank : ∀ a ∈ items, ∀ b ∈ items, needs a b → rank b < rank a) {a : α} (ha : a ∈ items)
    (hplaced : a ∉ placed) : ∃ b, Ready items needs placed b := by
  -- either `a` is ready, or it needs an item of smaller rank that is not placed
  induction hn : rank a using Nat.strong_induction_on generalizing a with
  | _ n ih =>
    subst hn
    by_cases hneeds : ∀ b ∈ items, needs a b → b ∈ placed
    · exact ⟨a, ha, hplaced, hneeds⟩
    · push Not at hneeds
      obtain ⟨b, hb, hab, hunplaced⟩ := hneeds
      exact ih (rank b) (hrank a ha b hb hab) hb hunplaced rfl

end GreedyOrder
