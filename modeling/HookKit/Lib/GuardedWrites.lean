import Mathlib.Data.List.Pairwise
import Mathlib.Data.List.Basic

/-!
# Guarded writes

Cells of a world are written one after the other, each only while it still holds what is expected
of it, and the first write that is not complete is the last.  Nothing is known about a write but
what its outcome says.

* `Cells` — how cells are read, what is expected of them, which of them do not overlap.
* `Task.Honest` — a write leaves the cells beside it alone, and its outcome is true.
* `Ran` — some of the tasks were carried out, and the writes answered what the calls record.
* `writeAll` — all of them are carried out and complete.
* `Ran.keeps_stale` — a cell that does not hold what was expected is not written.
* `Ran.before_stale` — and no cell behind it is.
* `exists_writeAll` — nothing stands in the way of carrying them out.
* `Ran.keeps_untouched`, `writeAll_holds` — what the outcomes say of all the cells together.
-/

set_option autoImplicit false

namespace GuardedWrites

/-- A world of cells, and the two outcomes of a write that say what became of its cell. -/
structure Cells (W C V ρ : Type*) where
  read : W → C → V
  expected : C → V
  Separate : C → C → Prop
  symm : ∀ {c d : C}, Separate c d → Separate d c
  untouched : ρ
  complete : ρ
  distinct : complete ≠ untouched

/-- A cell that is to hold a value, and the way to write it. -/
structure Task (W C V ρ : Type*) where
  cell : C
  value : V
  write : W → ρ × W

/-- A write that took place: what the cell held before and what the write answered. -/
structure Call (C V ρ : Type*) where
  cell : C
  value : V
  found : V
  outcome : ρ

variable {W C V ρ : Type*} (K : Cells W C V ρ)

/-- The write touches no cell but its own, and says the truth about that. -/
structure Task.Honest (t : Task W C V ρ) : Prop where
  frame : ∀ w c, K.Separate c t.cell → K.read (t.write w).2 c = K.read w c
  untouched : ∀ w, (t.write w).1 = K.untouched → K.read (t.write w).2 t.cell = K.read w t.cell
  complete : ∀ w, (t.write w).1 = K.complete → K.read (t.write w).2 t.cell = t.value

/-- The call of a task's write in a world. -/
def Task.call (t : Task W C V ρ) (w : W) : Call C V ρ :=
  ⟨t.cell, t.value, K.read w t.cell, (t.write w).1⟩

/-- The tasks are taken in order; where it ends is up to the outcomes and to the one who calls. -/
inductive Ran : List (Task W C V ρ) → W → List (Call C V ρ) → W → Prop
  | stop (tasks : List (Task W C V ρ)) (w : W) : Ran tasks w [] w
  | last {t : Task W C V ρ} (rest : List (Task W C V ρ)) {w : W}
      (hcurrent : K.read w t.cell = K.expected t.cell) (hout : (t.write w).1 ≠ K.complete) :
      Ran (t :: rest) w [t.call K w] (t.write w).2
  | next {t : Task W C V ρ} {rest : List (Task W C V ρ)} {w w' : W} {calls : List (Call C V ρ)}
      (hcurrent : K.read w t.cell = K.expected t.cell) (hout : (t.write w).1 = K.complete)
      (h : Ran rest (t.write w).2 calls w') : Ran (t :: rest) w (t.call K w :: calls) w'

/-- Carry out all the tasks, if every cell is as expected and every write completes. -/
def writeAll [DecidableEq V] [DecidableEq ρ] : List (Task W C V ρ) → W → Option W
  | [], w => some w
  | t :: rest, w =>
    if K.read w t.cell = K.expected t.cell ∧ (t.write w).1 = K.complete
    then writeAll rest (t.write w).2 else none

variable {K} {tasks more : List (Task W C V ρ)} {t : Task W C V ρ} {w w' w'' : W} {c : C}
  {calls calls' : List (Call C V ρ)}

/-! ## What a run leaves alone -/

/-- A cell beside all the tasks keeps its value. -/
theorem Ran.frame (h : Ran K tasks w calls w') (honest : ∀ t ∈ tasks, t.Honest K)
    (hsep : ∀ t ∈ tasks, K.Separate c t.cell) : K.read w' c = K.read w c := by
  induction h with
  | stop => rfl
  | last rest =>
    exact (honest _ List.mem_cons_self).frame _ _ (hsep _ List.mem_cons_self)
  | next _ _ _ ih =>
    rw [ih (fun t ht ↦ honest t (List.mem_cons_of_mem _ ht))
      (fun t ht ↦ hsep t (List.mem_cons_of_mem _ ht))]
    exact (honest _ List.mem_cons_self).frame _ _ (hsep _ List.mem_cons_self)

/-- Every cell that was written held what was expected, right then. -/
theorem Ran.current (h : Ran K tasks w calls w') :
    ∀ call ∈ calls, call.found = K.expected call.cell := by
  induction h with
  | stop => nofun
  | last _ hcurrent =>
    intro call hcall
    rw [List.mem_singleton] at hcall
    rw [hcall]
    exact hcurrent
  | next hcurrent _ _ ih =>
    intro call hcall
    rcases List.mem_cons.mp hcall with rfl | hcall
    · exact hcurrent
    · exact ih call hcall

/-- **A cell that somebody changed is not written.** -/
theorem Ran.keeps_stale (h : Ran K tasks w calls w') (honest : ∀ t ∈ tasks, t.Honest K)
    (hsep : (tasks.map Task.cell).Pairwise K.Separate) (ht : t ∈ tasks)
    (hstale : K.read w t.cell ≠ K.expected t.cell) : K.read w' t.cell = K.read w t.cell := by
  induction h with
  | stop => rfl
  | last rest hcurrent hout =>
    rw [List.map_cons, List.pairwise_cons] at hsep
    rcases List.mem_cons.mp ht with rfl | ht
    · exact absurd hcurrent hstale
    · exact (honest _ List.mem_cons_self).frame _ _
        (K.symm (hsep.1 _ (List.mem_map_of_mem ht)))
  | next hcurrent hout hrest ih =>
    rename_i t' _ w _ _
    rw [List.map_cons, List.pairwise_cons] at hsep
    rcases List.mem_cons.mp ht with rfl | ht
    · exact absurd hcurrent hstale
    · have hframe : K.read (t'.write w).2 t.cell = K.read w t.cell :=
        (honest _ List.mem_cons_self).frame _ _ (K.symm (hsep.1 _ (List.mem_map_of_mem ht)))
      rw [ih (fun t ht ↦ honest t (List.mem_cons_of_mem _ ht)) hsep.2 ht (by rwa [hframe]), hframe]

/-- **Nor is any cell behind it.** -/
theorem Ran.before_stale (h : Ran K (tasks ++ t :: more) w calls w')
    (honest : ∀ t ∈ tasks, t.Honest K) (hsep : ∀ t' ∈ tasks, K.Separate t.cell t'.cell)
    (hstale : K.read w t.cell ≠ K.expected t.cell) :
    calls.map Call.cell <+: tasks.map Task.cell := by
  induction tasks generalizing w calls with
  | nil =>
    cases h with
    | stop => exact List.nil_prefix
    | last _ hcurrent => exact absurd hcurrent hstale
    | next hcurrent => exact absurd hcurrent hstale
  | cons t' rest ih =>
    rw [List.map_cons]
    cases h with
    | stop => exact List.nil_prefix
    | last => exact List.cons_prefix_cons.mpr ⟨rfl, List.nil_prefix⟩
    | next hcurrent hout hrest =>
      refine List.cons_prefix_cons.mpr ⟨rfl, ih hrest (fun t ht ↦ honest t (.tail _ ht))
        (fun t ht ↦ hsep t (.tail _ ht)) ?_⟩
      rwa [(honest t' List.mem_cons_self).frame _ _ (hsep t' List.mem_cons_self)]

/-- If no write touched its cell, all the cells are what they were. -/
theorem Ran.keeps_untouched (h : Ran K tasks w calls w') (honest : ∀ t ∈ tasks, t.Honest K)
    (hsep : (tasks.map Task.cell).Pairwise K.Separate)
    (hout : ∀ call ∈ calls, call.outcome = K.untouched) (ht : t ∈ tasks) :
    K.read w' t.cell = K.read w t.cell := by
  cases h with
  | stop => rfl
  | last rest hcurrent hne =>
    rw [List.map_cons, List.pairwise_cons] at hsep
    rcases List.mem_cons.mp ht with rfl | ht
    · exact (honest _ List.mem_cons_self).untouched _ (hout _ List.mem_cons_self)
    · exact (honest _ List.mem_cons_self).frame _ _
        (K.symm (hsep.1 _ (List.mem_map_of_mem ht)))
  | next hcurrent hcomplete hrest =>
    have huntouched := hout _ List.mem_cons_self
    exact absurd (hcomplete.symm.trans huntouched) K.distinct

/-! ## Carrying out everything -/

variable (K) in
/-- Every task was carried out, and every write was complete. -/
structure Finished (tasks : List (Task W C V ρ)) (calls : List (Call C V ρ)) : Prop where
  length : calls.length = tasks.length
  complete : ∀ call ∈ calls, call.outcome = K.complete

theorem Finished.cons {call : Call C V ρ} (h : Finished K tasks calls)
    (hcall : call.outcome = K.complete) : Finished K (t :: tasks) (call :: calls) := by
  refine ⟨by rw [List.length_cons, List.length_cons, h.length], fun call' hmem ↦ ?_⟩
  rcases List.mem_cons.mp hmem with rfl | hmem
  · exact hcall
  · exact h.complete call' hmem

theorem Finished.tail {call : Call C V ρ} (h : Finished K (t :: tasks) (call :: calls)) :
    Finished K tasks calls :=
  ⟨Nat.succ.inj h.length, fun call' hmem ↦ h.complete call' (List.mem_cons_of_mem _ hmem)⟩

theorem Finished.append (h : Finished K tasks calls) (h' : Finished K more calls') :
    Finished K (tasks ++ more) (calls ++ calls') := by
  refine ⟨by rw [List.length_append, List.length_append, h.length, h'.length], fun call hmem ↦ ?_⟩
  exact (List.mem_append.mp hmem).elim (h.complete call) (h'.complete call)

/-- What follows a run that carried out everything goes on from there. -/
theorem Ran.append (h : Ran K tasks w calls w') (hfinished : Finished K tasks calls)
    (hmore : Ran K more w' calls' w'') : Ran K (tasks ++ more) w (calls ++ calls') w'' := by
  induction h with
  | stop tasks w =>
    rw [List.eq_nil_of_length_eq_zero hfinished.length.symm]
    exact hmore
  | last rest hcurrent hout => exact absurd (hfinished.complete _ List.mem_cons_self) hout
  | next hcurrent hout hrest ih => exact .next hcurrent hout (ih hfinished.tail hmore)

/-- A run that ends early ends early in a longer list, too. -/
theorem Ran.weaken (h : Ran K tasks w calls w') (more : List (Task W C V ρ)) :
    Ran K (tasks ++ more) w calls w' := by
  induction h with
  | stop => exact .stop _ _
  | last rest hcurrent hout => exact .last _ hcurrent hout
  | next hcurrent hout hrest ih => exact .next hcurrent hout ih

/-- The cells are taken in order, each at most once. -/
theorem Ran.cells (h : Ran K tasks w calls w') : calls.map Call.cell <+: tasks.map Task.cell := by
  induction h with
  | stop => exact List.nil_prefix
  | last rest => exact List.cons_prefix_cons.mpr ⟨rfl, List.nil_prefix⟩
  | next _ _ _ ih => exact List.cons_prefix_cons.mpr ⟨rfl, ih⟩

section

variable [DecidableEq V] [DecidableEq ρ]

theorem writeAll_cons_eq_some {rest : List (Task W C V ρ)} :
    writeAll K (t :: rest) w = some w' ↔ (K.read w t.cell = K.expected t.cell ∧
      (t.write w).1 = K.complete) ∧ writeAll K rest (t.write w).2 = some w' := by
  rw [writeAll]
  split
  · rename_i hok
    exact ⟨fun h ↦ ⟨hok, h⟩, And.right⟩
  · rename_i hok
    exact ⟨nofun, fun h ↦ absurd h.1 hok⟩

theorem writeAll_append (tasks more : List (Task W C V ρ)) (w : W) :
    writeAll K (tasks ++ more) w = (writeAll K tasks w).bind (writeAll K more) := by
  induction tasks generalizing w with
  | nil => rfl
  | cons t rest ih =>
    rw [List.cons_append, writeAll, writeAll]
    split
    · exact ih _
    · rfl

/-- A run in which every task was carried out is what `writeAll` computes. -/
theorem Ran.writeAll_eq (h : Ran K tasks w calls w') (hfinished : Finished K tasks calls) :
    writeAll K tasks w = some w' := by
  induction h with
  | stop tasks w =>
    rw [List.eq_nil_of_length_eq_zero hfinished.length.symm]
    rfl
  | last rest hcurrent hout =>
    exact absurd (hfinished.complete _ List.mem_cons_self) hout
  | next hcurrent hout hrest ih =>
    exact writeAll_cons_eq_some.mpr ⟨⟨hcurrent, hout⟩, ih hfinished.tail⟩

/-- And the other way round. -/
theorem ran_of_writeAll (h : writeAll K tasks w = some w') :
    ∃ calls, Ran K tasks w calls w' ∧ Finished K tasks calls := by
  induction tasks generalizing w with
  | nil =>
    cases h
    exact ⟨[], .stop _ _, rfl, nofun⟩
  | cons t rest ih =>
    obtain ⟨⟨hcurrent, hout⟩, hrest⟩ := writeAll_cons_eq_some.mp h
    obtain ⟨calls, hran, hfinished⟩ := ih hrest
    exact ⟨_, .next hcurrent hout hran, hfinished.cons hout⟩

/-- **Afterwards every cell holds its value.** -/
theorem writeAll_holds (h : writeAll K tasks w = some w') (honest : ∀ t ∈ tasks, t.Honest K)
    (hsep : (tasks.map Task.cell).Pairwise K.Separate) (ht : t ∈ tasks) :
    K.read w' t.cell = t.value := by
  induction tasks generalizing w with
  | nil => cases ht
  | cons t' rest ih =>
    obtain ⟨⟨hcurrent, hout⟩, hrest⟩ := writeAll_cons_eq_some.mp h
    rw [List.map_cons, List.pairwise_cons] at hsep
    have honest' := fun t ht ↦ honest t (List.mem_cons_of_mem t' ht)
    rcases List.mem_cons.mp ht with rfl | ht
    · obtain ⟨calls, hran, -⟩ := ran_of_writeAll hrest
      rw [hran.frame honest' fun t' ht' ↦ hsep.1 _ (List.mem_map_of_mem ht')]
      exact (honest _ List.mem_cons_self).complete _ hout
    · exact ih hrest honest' hsep.2 ht

/-- If every cell is as expected and every write always completes, all are carried out. -/
theorem exists_writeAll (honest : ∀ t ∈ tasks, t.Honest K)
    (hsep : (tasks.map Task.cell).Pairwise K.Separate)
    (hcurrent : ∀ t ∈ tasks, K.read w t.cell = K.expected t.cell)
    (hcomplete : ∀ t ∈ tasks, ∀ w, (t.write w).1 = K.complete) :
    ∃ w', writeAll K tasks w = some w' := by
  induction tasks generalizing w with
  | nil => exact ⟨w, rfl⟩
  | cons t rest ih =>
    rw [List.map_cons, List.pairwise_cons] at hsep
    have hmem := fun t' (ht : t' ∈ rest) ↦ List.mem_cons_of_mem t ht
    obtain ⟨w', hw'⟩ := @ih (t.write w).2 (fun t' ht ↦ honest t' (hmem t' ht)) hsep.2
      (fun t' ht ↦ by
        rw [(honest t List.mem_cons_self).frame w _ (K.symm (hsep.1 _ (List.mem_map_of_mem ht)))]
        exact hcurrent t' (hmem t' ht))
      (fun t' ht ↦ hcomplete t' (hmem t' ht))
    exact ⟨w', writeAll_cons_eq_some.mpr
      ⟨⟨hcurrent t List.mem_cons_self, hcomplete t List.mem_cons_self w⟩, hw'⟩⟩

end

end GuardedWrites
