import Mathlib.Order.Basic
import Mathlib.Order.Nat

/-!
# Looking along a line of ancestors

A forest in which every node inherits what it does not have itself.

* `Forest.owner` — the nearest node, from a node upwards, that has the thing.
* `Forest.Reaches` — a node below, with nothing of its own on the way up.
* `Reaches.owner_eq` — the node inherits from there.
* `owner_insert_of_reaches`, `owner_insert_of_not_reaches` — what is changed by giving the thing to
  one more node.
-/

set_option autoImplicit false

namespace Inheritance

variable {α : Type}

/-- A forest; the depth grows on the way down, so no node is above itself. -/
structure Forest (α : Type) where
  parent : α → Option α
  depth : α → Nat
  parent_depth : ∀ {c p : α}, parent c = some p → depth p < depth c

namespace Forest

variable (f : Forest α) {has has' : α → Bool} {c d p target : α}

/-- The nearest node, from `c` upwards, that has the thing. -/
def owner (has : α → Bool) (c : α) : Option α :=
  if has c = true then some c
  else
    match _h : f.parent c with
    | none => none
    | some p => owner has p
termination_by f.depth c
decreasing_by exact f.parent_depth ‹_›

/-- `c` is `target`, or below it with nothing of its own from `c` up to there. -/
inductive Reaches (has : α → Bool) (target : α) : α → Prop where
  | here : Reaches has target target
  | up {c p : α} (hparent : f.parent c = some p) (hhas : has c = false) (h : Reaches has target p) :
      Reaches has target c

variable {f}

theorem owner_self (h : has c = true) : f.owner has c = some c := by
  rw [owner, if_pos h]

theorem owner_parent (h : has c = false) (hparent : f.parent c = some p) :
    f.owner has c = f.owner has p := by
  rw [owner, if_neg (by rw [h]; exact Bool.false_ne_true)]
  split
  · next hnone => cases hparent.symm.trans hnone
  · next hsome => cases hparent.symm.trans hsome; rfl

theorem owner_root (h : has c = false) (hparent : f.parent c = none) : f.owner has c = none := by
  rw [owner, if_neg (by rw [h]; exact Bool.false_ne_true)]
  split
  · rfl
  · next hsome => cases hparent.symm.trans hsome

/-- What is found has the thing, and it is reached from where one has looked. -/
theorem owner_spec (h : f.owner has c = some d) : has d = true ∧ f.Reaches has d c := by
  fun_induction owner f has c with
  | case1 c hc =>
    cases h
    exact ⟨hc, .here⟩
  | case2 => cases h
  | case3 c hc p hp ih =>
    obtain ⟨hd, hreach⟩ := ih h
    exact ⟨hd, .up hp (Bool.not_eq_true _ ▸ hc) hreach⟩

/-- A node inherits from where it reaches. -/
theorem Reaches.owner_eq (h : f.Reaches has target c) : f.owner has c = f.owner has target := by
  induction h with
  | here => rfl
  | up hparent hhas _ ih => rw [owner_parent hhas hparent, ih]

/-! ## One more node -/

section

variable (hothers : ∀ c, c ≠ target → has' c = has c)

include hothers

/-- The nodes that reach it find the thing there. -/
theorem owner_insert_of_reaches (htarget : has' target = true) (h : f.Reaches has target c) :
    f.owner has' c = some target := by
  induction h with
  | here => exact owner_self htarget
  | @up c p hparent hhas _ ih =>
    by_cases hc : c = target
    · rw [hc]
      exact owner_self htarget
    · rw [owner_parent ((hothers c hc).trans hhas) hparent, ih]

/-- For the others everything is as before. -/
theorem owner_insert_of_not_reaches (h : ¬ f.Reaches has target c) :
    f.owner has' c = f.owner has c := by
  fun_induction owner f has c with
  | case1 c hc =>
    have hne : c ≠ target := fun heq ↦ h (heq ▸ .here)
    exact owner_self ((hothers c hne).trans hc)
  | case2 c hc hnone =>
    have hne : c ≠ target := fun heq ↦ h (heq ▸ .here)
    exact owner_root ((hothers c hne).trans (Bool.not_eq_true _ ▸ hc)) hnone
  | case3 c hc p hp ih =>
    have hne : c ≠ target := fun heq ↦ h (heq ▸ .here)
    have hhas : has c = false := Bool.not_eq_true _ ▸ hc
    rw [owner_parent ((hothers c hne).trans hhas) hp]
    exact ih fun hreach ↦ h (.up hp hhas hreach)

end

end Forest

end Inheritance
