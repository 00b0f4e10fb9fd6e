import Mathlib.Data.List.Basic

/-!
# Listings

What a reader that goes through some data and calls a visitor shows to it, as a value of its own.

* `Listing` — the items there are to be shown, and whether they are all or the data breaks off.
* `Listing.expand` — the items of the items.
* `visitAll` — a numbered visit of items by a visitor that may stop it.
* `visitAll_find` — a visitor that stops at the first item of a kind finds it.
-/

set_option autoImplicit false

/-- Items, and whether they are all; if not, something that cannot be read follows them. -/
structure Listing (α : Type) where
  items : List α
  whole : Bool
deriving DecidableEq, Repr

namespace Listing

variable {α β σ : Type}

/-- The items of a list of items; one that has none to give breaks the listing off. -/
def expandList (f : α → Option (List β)) (whole : Bool) : List α → Listing β
  | [] => ⟨[], whole⟩
  | a :: rest =>
    match f a with
    | none => ⟨[], false⟩
    | some own => ⟨own ++ (expandList f whole rest).items, (expandList f whole rest).whole⟩

/-- The items of the items of a listing. -/
def expand (f : α → Option (List β)) (l : Listing α) : Listing β := expandList f l.whole l.items

theorem mem_expandList {f : α → Option (List β)} {whole : Bool} {l : List α} {b : β}
    (h : b ∈ (expandList f whole l).items) : ∃ a own, a ∈ l ∧ f a = some own ∧ b ∈ own := by
  induction l with
  | nil => cases h
  | cons a rest ih =>
    rw [expandList] at h
    split at h
    · cases h
    · rename_i own hown
      rcases List.mem_append.mp h with h | h
      · exact ⟨a, own, List.mem_cons_self, hown, h⟩
      · obtain ⟨a', own', hmem, hf, hb⟩ := ih h
        exact ⟨a', own', List.mem_cons_of_mem _ hmem, hf, hb⟩

/-- Every item of the items is an item of one of them. -/
theorem mem_expand {f : α → Option (List β)} {l : Listing α} {b : β} (h : b ∈ (l.expand f).items) :
    ∃ a own, a ∈ l.items ∧ f a = some own ∧ b ∈ own :=
  mem_expandList h

/-- Show items to a visitor, numbered from `n` on; the answer tells whether it has stopped the
visit. -/
def visitAll (visit : σ → Nat → α → Bool × σ) : Nat → List α → σ → Bool × σ
  | _, [], s => (false, s)
  | n, a :: rest, s =>
    match visit s n a with
    | (false, s) => (true, s)
    | (true, s) => visitAll visit (n + 1) rest s

variable {visit : σ → Nat → α → Bool × σ}

theorem visitAll_cons_stop {n : Nat} {a : α} {s s' : σ} (h : visit s n a = (false, s'))
    (rest : List α) : visitAll visit n (a :: rest) s = (true, s') := by
  rw [visitAll, h]

theorem visitAll_cons_next {n : Nat} {a : α} {s s' : σ} (h : visit s n a = (true, s'))
    (rest : List α) : visitAll visit n (a :: rest) s = visitAll visit (n + 1) rest s' := by
  rw [visitAll, h]

/-- A visit that was stopped does not see what comes later. -/
theorem visitAll_append_stop {n : Nat} {own : List α} {s s' : σ}
    (h : visitAll visit n own s = (true, s')) (rest : List α) :
    visitAll visit n (own ++ rest) s = (true, s') := by
  induction own generalizing n s with
  | nil => cases h
  | cons a own ih =>
    rcases hvisit : visit s n a with ⟨_ | _, t⟩
    · rw [visitAll_cons_stop hvisit] at h
      rw [List.cons_append, visitAll_cons_stop hvisit, h]
    · rw [visitAll_cons_next hvisit] at h
      rw [List.cons_append, visitAll_cons_next hvisit, ih h]

/-- A visit that was not stopped goes on behind. -/
theorem visitAll_append_next {n : Nat} {own : List α} {s s' : σ}
    (h : visitAll visit n own s = (false, s')) (rest : List α) :
    visitAll visit n (own ++ rest) s = visitAll visit (n + own.length) rest s' := by
  induction own generalizing n s with
  | nil =>
    cases h
    rfl
  | cons a own ih =>
    rcases hvisit : visit s n a with ⟨_ | _, t⟩
    · rw [visitAll_cons_stop hvisit] at h
      cases h
    · rw [visitAll_cons_next hvisit] at h
      rw [List.cons_append, visitAll_cons_next hvisit, ih h, List.length_cons, Nat.add_right_comm,
        Nat.add_assoc]

/-- A visitor that does not look at the numbers does the same under all of them. -/
theorem visitAll_renumber (visit : σ → α → Bool × σ) (n m : Nat) (l : List α) (s : σ) :
    visitAll (fun s _ a ↦ visit s a) n l s = visitAll (fun s _ a ↦ visit s a) m l s := by
  induction l generalizing n m s with
  | nil => rfl
  | cons a rest ih =>
    rcases hvisit : visit s a with ⟨_ | _, t⟩
    · rw [visitAll_cons_stop hvisit, visitAll_cons_stop hvisit]
    · rw [visitAll_cons_next hvisit, visitAll_cons_next hvisit, ih]

/-- A visitor that stops at the first item of a kind. -/
theorem visitAll_find (p : α → Bool) (found : α → σ) (n : Nat) (l : List α) (s : σ) :
    visitAll (fun s _ a ↦ if p a then (false, found a) else (true, s)) n l s =
      ((l.find? p).isSome, ((l.find? p).map found).getD s) := by
  induction l generalizing n with
  | nil => rfl
  | cons a rest ih =>
    cases hp : p a with
    | true => rw [visitAll_cons_stop (by rw [hp, if_pos rfl]), List.find?_cons_of_pos hp]; rfl
    | false =>
      rw [visitAll_cons_next (by rw [hp]; rfl), List.find?_cons_of_neg (by rw [hp]; nofun), ih]

end Listing
