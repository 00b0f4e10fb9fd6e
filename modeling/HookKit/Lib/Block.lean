import Mathlib.Order.Basic

/-!
# Running a block of code, and translating it position by position

A processor is seen here as a step function `step : α → σ → Option (Exit α × σ)` from a program
counter and a state: the instruction at the counter either *falls* through to the next one or
*jumps* to an address.  Nothing in this file knows an instruction set.

* `Leaves` — control started inside a block of addresses, stayed inside, and left it; the exit is
  remembered, so that falling off the end is told from jumping to the address behind it.
* `Reaches` — every instruction executed so far lay inside the block.
* `Leaves.translate` — the rule for translating a block one position after the other.  If every
  position of the source is simulated by a run of the target between the two corresponding
  positions, and no jump of the source lands inside the block, the whole block is simulated.
-/

set_option autoImplicit false

namespace Block

/-- How control leaves one instruction. -/
inductive Exit (α : Type*) where
  | fall
  | jump (a : α)
deriving DecidableEq, Repr

/-- Where control goes from the instruction at `pc`. -/
def Exit.target {α : Type*} (next : α → α) (pc : α) : Exit α → α
  | .fall => next pc
  | .jump a => a

/-- Where a translated block has to end up: behind itself when the source fell off its end, at the
same address when the source jumped. -/
def Exit.place {α : Type*} (behind : α) : Exit α → α
  | .fall => behind
  | .jump a => a

variable {α σ τ : Type*}

/-- Execution from `pc` stays inside the block until the instruction that leaves it by `e`. -/
inductive Leaves (step : α → σ → Option (Exit α × σ)) (next : α → α) (inside : α → Prop) :
    α → σ → Exit α → σ → Prop
  | last {pc : α} {s : σ} {e : Exit α} {s' : σ} (hin : inside pc)
      (hstep : step pc s = some (e, s')) (hout : ¬ inside (e.target next pc)) :
      Leaves step next inside pc s e s'
  | more {pc : α} {s : σ} {e₁ : Exit α} {s₁ : σ} {e : Exit α} {s' : σ} (hin : inside pc)
      (hstep : step pc s = some (e₁, s₁)) (hin' : inside (e₁.target next pc))
      (h : Leaves step next inside (e₁.target next pc) s₁ e s') :
      Leaves step next inside pc s e s'

/-- Execution from `pc` gets to `q`, and every instruction on the way lies inside the block. -/
inductive Reaches (step : α → σ → Option (Exit α × σ)) (next : α → α) (inside : α → Prop) :
    α → σ → α → σ → Prop
  | refl (pc : α) (s : σ) : Reaches step next inside pc s pc s
  | step {pc : α} {s : σ} {e : Exit α} {s₁ : σ} {q : α} {s' : σ} (hin : inside pc)
      (hstep : step pc s = some (e, s₁))
      (h : Reaches step next inside (e.target next pc) s₁ q s') :
      Reaches step next inside pc s q s'

section

variable {step : α → σ → Option (Exit α × σ)} {next : α → α} {inside : α → Prop}

/-- A block is left in one way only. -/
theorem Leaves.unique {pc : α} {s : σ} {e e' : Exit α} {s₁ s₂ : σ}
    (h : Leaves step next inside pc s e s₁) (h' : Leaves step next inside pc s e' s₂) :
    e = e' ∧ s₁ = s₂ := by
  induction h with
  | last _ hstep hout =>
    cases h' with
    | last _ hstep' _ => rw [hstep] at hstep'; cases hstep'; exact ⟨rfl, rfl⟩
    | more _ hstep' hin' _ => rw [hstep] at hstep'; cases hstep'; exact absurd hin' hout
  | more _ hstep hin' _ ih =>
    cases h' with
    | last _ hstep' hout => rw [hstep] at hstep'; cases hstep'; exact absurd hin' hout
    | more _ hstep' _ h' => rw [hstep] at hstep'; cases hstep'; exact ih h'

/-- An instruction that jumps to itself is never left. -/
theorem Leaves.not_of_loop {pc : α} (hin : inside pc)
    (hstep : ∀ s, ∃ s₁, step pc s = some (.jump pc, s₁)) {s s' : σ} {e : Exit α} :
    ¬ Leaves step next inside pc s e s' := by
  intro h
  generalize hpc : pc = pc' at h
  induction h with
  | @last pc' s e s' _ hlast hout =>
    subst hpc
    obtain ⟨s₁, hs₁⟩ := hstep s
    rw [hs₁] at hlast
    cases hlast
    exact hout hin
  | @more pc' s e₁ s₁ e s' _ hmore _ _ ih =>
    subst hpc
    obtain ⟨s₂, hs₂⟩ := hstep s
    rw [hs₂] at hmore
    cases hmore
    exact ih rfl

/-- There is only one state in which a run can get out of the block at `q`. -/
theorem Reaches.unique {p q : α} (hq : ¬ inside q) {s s₁ s₂ : σ}
    (h : Reaches step next inside p s q s₁) (h' : Reaches step next inside p s q s₂) :
    s₁ = s₂ := by
  induction h with
  | refl =>
    cases h' with
    | refl => rfl
    | step hin _ _ => exact absurd hin hq
  | step hin hstep _ ih =>
    cases h' with
    | refl => exact absurd hin hq
    | step _ hstep' h' => rw [hstep] at hstep'; cases hstep'; exact ih hq h'

theorem Reaches.trans {p q r : α} {s s₁ s₂ : σ} (h : Reaches step next inside p s q s₁)
    (h' : Reaches step next inside q s₁ r s₂) : Reaches step next inside p s r s₂ := by
  induction h with
  | refl => exact h'
  | step hin hstep _ ih => exact .step hin hstep (ih h')

theorem Reaches.fall {pc : α} {s s' : σ} (hin : inside pc) (hstep : step pc s = some (.fall, s')) :
    Reaches step next inside pc s (next pc) s' :=
  .step hin hstep (.refl _ _)

theorem Reaches.jump {pc a : α} {s s' : σ} (hin : inside pc)
    (hstep : step pc s = some (.jump a, s')) : Reaches step next inside pc s a s' :=
  .step hin hstep (.refl _ _)

/-- More of the block may be counted as inside. -/
theorem Reaches.mono {inside' : α → Prop} (hsub : ∀ a, inside a → inside' a) {p q : α} {s s' : σ}
    (h : Reaches step next inside p s q s') : Reaches step next inside' p s q s' := by
  induction h with
  | refl => exact .refl _ _
  | step hin hstep _ ih => exact .step (hsub _ hin) hstep ih

end

/-! ## Translating a block -/

variable {step₁ : α → σ → Option (Exit α × σ)} {step₂ : α → τ → Option (Exit α × τ)}
  {next : α → α} {inside₁ inside₂ : α → Prop}

/-- What the target has to do for one source instruction, from the target position `q` to `q'`. -/
def Simulates (step₂ : α → τ → Option (Exit α × τ)) (next : α → α) (inside₁ inside₂ : α → Prop)
    (q q' : α) (t : τ) (e : Exit α) (t' : τ) : Prop :=
  Reaches step₂ next inside₂ q t (e.place q') t' ∧ ∀ a, e = .jump a → ¬ inside₁ a

/-- **Position by position.**  The source positions are `p 0, …, p n`, the block being the first
`n` of them; the target positions are `q 0, …, q n`.  `R i` relates the states at position `i`. -/
theorem Leaves.translate {n : Nat} (p q : Nat → α) (R : Nat → σ → τ → Prop)
    (hin : ∀ i, i < n → inside₁ (p i)) (hout : ¬ inside₁ (p n))
    (hnext : ∀ i, i < n → next (p i) = p (i + 1))
    (hmono : ∀ i s t, i ≤ n → R i s t → R n s t)
    (hstep : ∀ i s t, i < n → R i s t → ∃ e s' t', step₁ (p i) s = some (e, s') ∧
      R (i + 1) s' t' ∧ Simulates step₂ next inside₁ inside₂ (q i) (q (i + 1)) t e t') :
    ∀ i s t, i < n → R i s t → ∃ e s' t', Leaves step₁ next inside₁ (p i) s e s' ∧
      Reaches step₂ next inside₂ (q i) t (e.place (q n)) t' ∧ R n s' t' := by
  intro i s t hi hR
  obtain ⟨d, hd⟩ : ∃ d, n = i + d + 1 := ⟨n - i - 1, by omega⟩
  -- the induction is on how many positions are left behind this one
  induction d generalizing i s t with
  | zero =>
    obtain ⟨e, s', t', hs, hR', hreach, hjump⟩ := hstep i s t hi hR
    have hn : i + 1 = n := by omega
    rw [hn] at hR' hreach
    refine ⟨e, s', t', .last (hin i hi) hs ?_, hreach, hR'⟩
    cases e with
    | fall => rw [Exit.target, hnext i hi, hn]; exact hout
    | jump a => exact hjump a rfl
  | succ d ih =>
    obtain ⟨e, s', t', hs, hR', hreach, hjump⟩ := hstep i s t hi hR
    cases e with
    | jump a =>
      exact ⟨.jump a, s', t', .last (hin i hi) hs (hjump a rfl), hreach,
        hmono (i + 1) s' t' (by omega) hR'⟩
    | fall =>
      obtain ⟨e', s₂, t₂, hleave, hreach', hR₂⟩ := ih (i + 1) s' t' (by omega) hR' (by omega)
      refine ⟨e', s₂, t₂, .more (hin i hi) hs ?_ ?_, hreach.trans hreach', hR₂⟩
      · rw [Exit.target, hnext i hi]; exact hin (i + 1) (by omega)
      · rw [Exit.target, hnext i hi]; exact hleave

end Block
