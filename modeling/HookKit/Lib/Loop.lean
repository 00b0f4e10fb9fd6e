import Mathlib.Order.Basic
import Mathlib.Data.Nat.Basic

/-!
# Loops that may give up

A loop is a body `σ → Flow σ` that is repeated while a test holds.  The body either goes on with a
new state or gives up in one, as C code does with an early `return`.

* `run` — the loop, with fuel.
* `run_invariant` — what every pass keeps holds of the state the loop ends in, given up or not.
* `run_rel` — what every pass does to the state, taken transitively.
* `run_finished` — a loop that counts down ends because its test fails or because it gives up,
  never because the fuel is used up.
* `visited` — the states in which the body is run.
-/

set_option autoImplicit false

namespace Loop

/-- The end of one pass. -/
inductive Flow (σ : Type*) where
  | next (s : σ)
  | stop (s : σ)

namespace Flow

variable {σ : Type*}

/-- The state a pass ends in. -/
def state : Flow σ → σ
  | next s => s
  | stop s => s

/-- Whether the loop goes on. -/
def isNext : Flow σ → Bool
  | next _ => true
  | stop _ => false

@[simp] theorem state_next (s : σ) : (next s).state = s := rfl
@[simp] theorem state_stop (s : σ) : (stop s).state = s := rfl
@[simp] theorem isNext_next (s : σ) : (next s).isNext = true := rfl
@[simp] theorem isNext_stop (s : σ) : (stop s).isNext = false := rfl

end Flow

variable {σ : Type*}

/-- Repeat `body` while `more` holds, at most `fuel` times. -/
def run (more : σ → Bool) (body : σ → Flow σ) : Nat → σ → Flow σ
  | 0, s => .next s
  | fuel + 1, s =>
    if more s then
      match body s with
      | .next s => run more body fuel s
      | .stop s => .stop s
    else .next s

variable {more : σ → Bool} {body : σ → Flow σ}

/-- **The invariant rule.** -/
theorem run_invariant (I : σ → Prop) (hbody : ∀ s, more s = true → I s → I (body s).state)
    (fuel : Nat) {s : σ} (h : I s) : I (run more body fuel s).state := by
  induction fuel generalizing s with
  | zero => exact h
  | succ fuel ih =>
    rw [run]
    split
    · rename_i hmore
      have hI := hbody s hmore h
      cases hs : body s with
      | next s' => rw [hs] at hI; exact ih hI
      | stop s' => rw [hs] at hI; exact hI
    · exact h

/-- **The relation rule.**  A reflexive and transitive relation that every pass satisfies relates
the first state to the last; an invariant may be used on the way. -/
theorem run_rel (I : σ → Prop) (R : σ → σ → Prop) (hrefl : ∀ s, R s s)
    (htrans : ∀ s s₁ s₂, R s s₁ → R s₁ s₂ → R s s₂)
    (hbody : ∀ s, more s = true → I s → I (body s).state ∧ R s (body s).state)
    (fuel : Nat) {s : σ} (h : I s) : R s (run more body fuel s).state := by
  have hboth : I (run more body fuel s).state ∧ R s (run more body fuel s).state := by
    refine run_invariant (fun s' ↦ I s' ∧ R s s') ?_ fuel ⟨h, hrefl s⟩
    rintro s' hmore ⟨hI, hR⟩
    obtain ⟨hI', hR'⟩ := hbody s' hmore hI
    exact ⟨hI', htrans _ _ _ hR hR'⟩
  exact hboth.2

/-- **The termination rule.** -/
theorem run_finished (measure : σ → Nat)
    (hbody : ∀ s s', more s = true → body s = .next s' → measure s' < measure s)
    (hzero : ∀ s, more s = true → 0 < measure s)
    {fuel : Nat} {s s' : σ} (hfuel : measure s ≤ fuel) (h : run more body fuel s = .next s') :
    more s' = false := by
  induction fuel generalizing s with
  | zero =>
    have hs : s = s' := by injection h
    subst hs
    by_contra hmore
    have := hzero s (by simpa using hmore)
    omega
  | succ fuel ih =>
    rw [run] at h
    split at h
    · rename_i hmore
      cases hs : body s with
      | next s₁ =>
        rw [hs] at h
        have := hbody s s₁ hmore hs
        exact ih (by omega) h
      | stop s₁ => rw [hs] at h; cases h
    · rename_i hmore
      cases h
      simpa using hmore

/-! ## The states on the way -/

/-- The states in which the loop runs its body. -/
def visited (more : σ → Bool) (body : σ → Flow σ) : Nat → σ → List σ
  | 0, _ => []
  | fuel + 1, s =>
    if more s then
      s :: match body s with
        | .next s' => visited more body fuel s'
        | .stop _ => []
    else []

/-- **The invariant rule with a view of the way.**  A pass only has to keep the invariant in the
states the loop really comes through. -/
theorem run_invariant_visited (I : σ → Prop) (fuel : Nat) {start : σ}
    (hbody : ∀ s ∈ visited more body fuel start, I s → I (body s).state) (h : I start) :
    I (run more body fuel start).state := by
  induction fuel generalizing start with
  | zero => exact h
  | succ fuel ih =>
    rw [visited] at hbody
    rw [run]
    split
    · rename_i hmore
      rw [if_pos hmore] at hbody
      have hI := hbody start List.mem_cons_self h
      cases hs : body start with
      | next s' =>
        rw [hs] at hbody hI
        exact ih (fun s hmem ↦ hbody s (List.mem_cons_of_mem start hmem)) hI
      | stop s' => rwa [hs] at hI
    · exact h

/-- What every pass keeps holds in every state the loop comes through, and what every pass from
there on keeps then holds to the end. -/
theorem visited_invariant (I : σ → Prop) (fuel : Nat) {start s : σ}
    (hmem : s ∈ visited more body fuel start)
    (hbody : ∀ s ∈ visited more body fuel start, I s → I (body s).state) (h : I start) :
    more s = true ∧ I s ∧ ∀ J : σ → Prop, J (body s).state →
      (∀ s ∈ visited more body fuel start, I s → J s → J (body s).state) →
      J (run more body fuel start).state := by
  induction fuel generalizing start with
  | zero => exact absurd hmem List.not_mem_nil
  | succ fuel ih =>
    rw [visited] at hmem hbody ⊢
    split at hmem
    · rename_i hmore
      rw [if_pos hmore] at hbody ⊢
      have hI := hbody start List.mem_cons_self h
      rw [run, if_pos hmore]
      cases hs : body start with
      | next s' =>
        rw [hs] at hmem hbody hI
        have hrest := fun s hs ↦ hbody s (List.mem_cons_of_mem start hs)
        rcases List.mem_cons.mp hmem with rfl | hmem
        · refine ⟨hmore, h, fun J hJ hkeep ↦ ?_⟩
          rw [hs] at hJ
          have hboth := run_invariant_visited (fun s ↦ I s ∧ J s) fuel
            (fun s hmem hIJ ↦ ⟨hrest s hmem hIJ.1,
              hkeep s (List.mem_cons_of_mem _ hmem) hIJ.1 hIJ.2⟩) ⟨hI, hJ⟩
          exact hboth.2
        · obtain ⟨hmore', hIs, hto⟩ := ih hmem hrest hI
          exact ⟨hmore', hIs, fun J hJ hkeep ↦
            hto J hJ fun s hmem ↦ hkeep s (List.mem_cons_of_mem start hmem)⟩
      | stop s' =>
        rw [hs] at hmem
        obtain rfl := List.mem_singleton.mp hmem
        refine ⟨hmore, h, fun J hJ _ ↦ ?_⟩
        rwa [hs] at hJ
    · exact absurd hmem List.not_mem_nil

/-- A pass that gives up is the last one. -/
theorem run_of_visited_stop {fuel : Nat} {start s s' : σ} (hmem : s ∈ visited more body fuel start)
    (h : body s = .stop s') : run more body fuel start = .stop s' := by
  induction fuel generalizing start with
  | zero => exact absurd hmem List.not_mem_nil
  | succ fuel ih =>
    rw [visited] at hmem
    rw [run]
    split at hmem
    · rename_i hmore
      rw [if_pos hmore]
      rcases List.mem_cons.mp hmem with rfl | hmem
      · rw [h]
      · cases hs : body start with
        | next s₁ =>
          rw [hs] at hmem
          exact ih hmem
        | stop s₁ =>
          rw [hs] at hmem
          exact absurd hmem List.not_mem_nil
    · exact absurd hmem List.not_mem_nil

end Loop
