import HookKit.Lib.Trace
import Mathlib.Data.List.Count
import Mathlib.Order.Nat

/-!
# Custody

Some events of a history hand something out and some take it back, and in between somebody holds it.
What is out must be what is held: nothing gets lost, and nothing is taken back twice.

* `given`, `taken` — how often a history hands a thing out and takes it back.
* `Covered` — what is held is out.
* `Once` — whatever is taken back was out at that moment.
* `Carries` — a step that loses nothing if and only if some condition holds.
* `Carries.trans`, `Carries.frame` — one step after the other, and beside other holders.
-/

set_option autoImplicit false

namespace Custody

open Trace

variable {α κ : Type*} [DecidableEq κ]

/-! ## What is out -/

/-- How often the thing was handed out. -/
def given (gives : α → Option κ) (k : κ) (history : List α) : Nat :=
  history.countP fun e ↦ gives e = some k

/-- How often the thing was taken back. -/
def taken (takes : α → Option κ) (k : κ) (history : List α) : Nat :=
  history.countP fun e ↦ takes e = some k

variable {gives takes : α → Option κ} {k : κ}

theorem given_cons (e : α) (history : List α) :
    given gives k (e :: history) = given gives k history + if gives e = some k then 1 else 0 := by
  simp [given, List.countP_cons]

theorem taken_cons (e : α) (history : List α) :
    taken takes k (e :: history) = taken takes k history + if takes e = some k then 1 else 0 := by
  simp [taken, List.countP_cons]

variable (gives takes)

/-- What is held is out. -/
def Covered (held : List κ) (history : List α) : Prop :=
  ∀ k, taken takes k history + held.count k ≤ given gives k history

/-- Whatever is taken back was out. -/
def Once : List α → Prop :=
  Always fun e past ↦ ∀ k, takes e = some k → taken takes k past < given gives k past

/-- **A step of the holders.**  What is out and not held never becomes less, and it stays what it is
exactly under the condition; whatever is taken back was out. -/
structure Carries (P : Prop) (held held' : List κ) (old new : List α) : Prop where
  le : ∀ k, given gives k old + taken takes k new + held'.count k ≤
    given gives k new + taken takes k old + held.count k
  eq_iff : P ↔ ∀ k, given gives k old + taken takes k new + held'.count k =
    given gives k new + taken takes k old + held.count k
  once : Covered gives takes held old → Once gives takes old → Once gives takes new

variable {gives takes} {P Q : Prop} {held held₁ held' : List κ} {old mid new : List α}

/-! ## Steps -/

namespace Carries

theorem refl (held : List κ) (history : List α) :
    Carries gives takes True held held history history :=
  ⟨fun _ ↦ le_rfl, iff_of_true trivial fun _ ↦ rfl, fun _ ↦ id⟩

theorem congr (h : Carries gives takes P held held' old new) (hPQ : P ↔ Q) :
    Carries gives takes Q held held' old new := ⟨h.le, hPQ.symm.trans h.eq_iff, h.once⟩

/-- What is held stays out. -/
theorem covered (h : Carries gives takes P held held' old new)
    (hold : Covered gives takes held old) : Covered gives takes held' new := by
  intro k
  have hle := h.le k
  have hk := hold k
  omega

/-- One step after the other. -/
theorem trans (h : Carries gives takes P held held₁ old mid)
    (h' : Carries gives takes Q held₁ held' mid new) :
    Carries gives takes (P ∧ Q) held held' old new := by
  refine ⟨fun k ↦ ?_, ?_, fun hcovered honce ↦ h'.once (h.covered hcovered) (h.once hcovered honce)⟩
  · have hle := h.le k
    have hle' := h'.le k
    omega
  · rw [h.eq_iff, h'.eq_iff, ← forall_and]
    refine forall_congr' fun k ↦ ?_
    have hle := h.le k
    have hle' := h'.le k
    omega

/-- Beside other holders. -/
theorem frame (h : Carries gives takes P held held' old new) (before after : List κ) :
    Carries gives takes P (before ++ held ++ after) (before ++ held' ++ after) old new := by
  refine ⟨fun k ↦ ?_, h.eq_iff.trans (forall_congr' fun k ↦ ?_), fun hcovered ↦ h.once fun k ↦ ?_⟩
  · have hle := h.le k
    rw [List.count_append, List.count_append, List.count_append, List.count_append]
    omega
  · rw [List.count_append, List.count_append, List.count_append, List.count_append]
    omega
  · have hk := hcovered k
    rw [List.count_append, List.count_append] at hk
    omega

/-- Nothing is handed out or taken back, and the same is held. -/
theorem silent (h : Adds (fun e ↦ gives e = none ∧ takes e = none) old new) (held : List κ) :
    Carries gives takes True held held old new := by
  obtain ⟨added, rfl, hadded⟩ := h
  induction added with
  | nil => exact refl held old
  | cons e added ih =>
    have ih := ih fun e' he' ↦ hadded e' (List.mem_cons_of_mem e he')
    obtain ⟨hgives, htakes⟩ := hadded e List.mem_cons_self
    refine ⟨fun k ↦ ?_, iff_of_true trivial fun k ↦ ?_, fun hcovered honce ↦
      ⟨fun k hk ↦ ?_, ih.once hcovered honce⟩⟩
    · rw [List.cons_append, given_cons, taken_cons, hgives, htakes]
      exact ih.le k
    · rw [List.cons_append, given_cons, taken_cons, hgives, htakes]
      exact ih.eq_iff.mp trivial k
    · cases htakes.symm.trans hk

/-- Something is handed out and held. -/
theorem give {e : α} {k : κ} (hgives : gives e = some k) (htakes : takes e = none) (held : List κ) :
    Carries gives takes True held (k :: held) old (e :: old) := by
  have heq : ∀ k', given gives k' old + taken takes k' (e :: old) + (k :: held).count k' =
      given gives k' (e :: old) + taken takes k' old + held.count k' := by
    intro k'
    rw [given_cons, taken_cons, htakes, hgives, List.count_cons]
    by_cases hk : k = k' <;> simp [hk]
    omega
  refine ⟨fun k' ↦ (heq k').le, iff_of_true trivial heq, fun _ honce ↦ ⟨fun k' hk' ↦ ?_, honce⟩⟩
  cases htakes.symm.trans hk'

/-- Something is handed out and lost. -/
theorem lose {e : α} {k : κ} (hgives : gives e = some k) (htakes : takes e = none) (held : List κ) :
    Carries gives takes False held held old (e :: old) := by
  refine ⟨fun k' ↦ ?_, iff_of_false id fun h ↦ ?_, fun _ honce ↦ ⟨fun k' hk' ↦ ?_, honce⟩⟩
  · rw [given_cons, taken_cons, htakes]
    simp only [reduceCtorEq, if_false]
    omega
  · have hk := h k
    rw [given_cons, taken_cons, htakes, hgives, if_pos rfl, if_neg (by simp)] at hk
    omega
  · cases htakes.symm.trans hk'

/-- What is held is taken back. -/
theorem take {e : α} {k : κ} (hgives : gives e = none) (htakes : takes e = some k) (held : List κ) :
    Carries gives takes True (k :: held) held old (e :: old) := by
  have heq : ∀ k', given gives k' old + taken takes k' (e :: old) + held.count k' =
      given gives k' (e :: old) + taken takes k' old + (k :: held).count k' := by
    intro k'
    rw [given_cons, taken_cons, htakes, hgives, List.count_cons]
    by_cases hk : k = k' <;> simp [hk]
    omega
  refine ⟨fun k' ↦ (heq k').le, iff_of_true trivial heq, fun hcovered honce ↦
    ⟨fun k' hk' ↦ ?_, honce⟩⟩
  cases htakes.symm.trans hk'
  have hk := hcovered k
  rw [List.count_cons_self] at hk
  omega

end Carries

end Custody
