import HookKit.Compatibility.LegacyRuns
import HookKit.Plan.Coherent

/-!
# What the legacy codes admit

The old interface answers with a code and a cell.  `NOT_SUPPORTED` is documented to mean that nothing
was written, so that its caller may go on to another technique, and `OK` that the hook is in.

* `LegacyStatus.admits` — the codes after which something may have changed.
* `applyPlan_honest`, `applySpecs_honest` — the codes of a single call and of a batch.
-/

set_option autoImplicit false

namespace HookKit.Legacy

open Backends Loop

variable {ε α β : Type}

/-- The codes after which something may have changed. -/
def LegacyStatus.admits : LegacyStatus → Bool
  | .ok | .err | .errPartial => true
  | .notSupported | .invalidArgument => false

/-! ## The hooks of a call -/

/-- The hook is the plan's copy of a request. -/
structure Carries (ε : Type) (stripCode : Ptr → Ptr) (spec : HookSpec) (hook : Hook) : Prop where
  copied : ∃ env : Env ε, (copyTarget spec.target env).1 = .ok hook.spec.target
  keyed : hook.Keyed stripCode

/-- What no call on a plan changes about a hook. -/
structure Keeps (hook hook' : Hook) : Prop where
  hookId : hook'.hookId = hook.hookId
  spec : hook'.spec = hook.spec

theorem Keeps.refl (hook : Hook) : Keeps hook hook := ⟨rfl, rfl⟩

theorem Keeps.trans {h₁ h₂ h₃ : Hook} (h : Keeps h₁ h₂) (h' : Keeps h₂ h₃) : Keeps h₁ h₃ :=
  ⟨h'.hookId.trans h.hookId, h'.spec.trans h.spec⟩

theorem findHook_eq {hooks : List Hook} (hnodup : (hooks.map Hook.hookId).Nodup) {hook : Hook}
    (hhook : hook ∈ hooks) : findHook hooks hook.hookId = some hook := by
  cases hfound : findHook hooks hook.hookId with
  | none => exact absurd (List.find?_eq_none.mp hfound hook hhook) (by simp)
  | some found =>
    have hid : found.hookId = hook.hookId := by simpa using List.find?_some hfound
    rw [eq_of_hookId hnodup (List.mem_of_find?_eq_some hfound) hhook hid]

/-- A hook that is not yet anybody's: it hangs together, and nothing was mutated for it. -/
structure Fresh (stripCode : Ptr → Ptr) (hook : Hook) : Prop where
  bare : hook.Bare
  keyed : hook.Keyed stripCode
  unmutated : hook.result.outcome.mutated = false

variable (engines : EngineRef → Engine ε) (stripCode : Ptr → Ptr)

/-- One request. -/
theorem addHook_adds (plan : Plan) (spec : HookSpec) (w : World ε) :
    ((∃ status, (addHook stripCode plan spec w).1 = .error status) ∧
        (addHook stripCode plan spec w).2.1 = plan ∧
        w.nextId ≤ (addHook stripCode plan spec w).2.2.nextId) ∨
      ∃ hook, (addHook stripCode plan spec w).1 = .ok hook.hookId ∧
        (addHook stripCode plan spec w).2.1.hooks = plan.hooks ++ [hook] ∧
        w.nextId ≤ hook.hookId ∧ hook.hookId < (addHook stripCode plan spec w).2.2.nextId ∧
        Carries ε stripCode spec hook ∧ Fresh stripCode hook := by
  rw [addHook]
  split
  · exact .inl ⟨⟨_, rfl⟩, rfl, le_rfl⟩
  have hfirst : w.nextId ≤ w.alloc.2.nextId := (World.quiet_alloc (Q := fun _ ↦ False) w).nextId
  split <;> rename_i heq <;> rw [heq] at hfirst
  · exact .inl ⟨⟨_, rfl⟩, rfl, hfirst⟩
  rename_i w₁
  have hsecond := hfirst.trans (World.quiet_alloc (Q := fun _ ↦ False) w₁).nextId
  split <;> rename_i heq <;> rw [heq] at hsecond
  · exact .inl ⟨⟨_, rfl⟩, rfl, hsecond⟩
  rename_i w₂
  cases hcopied : copyTarget spec.target w₂.env with
  | mk target? env =>
    cases target? with
    | error status => exact .inl ⟨⟨_, rfl⟩, rfl, hsecond⟩
    | ok target =>
      dsimp only
      cases hkey : targetKeyCopy stripCode target env with
      | mk key? env₁ =>
        cases key? with
        | none => exact .inl ⟨⟨_, rfl⟩, rfl, hsecond⟩
        | some key =>
          have htarget : targetKey stripCode target = some key := by
            rw [targetKeyCopy] at hkey
            split at hkey
            · cases hkey
            · exact congrArg Prod.fst hkey
          dsimp only
          split
          · exact .inl ⟨⟨_, rfl⟩, rfl, hsecond⟩
          split
          · exact .inl ⟨⟨_, rfl⟩, rfl, hsecond⟩
          dsimp only [World.freshId]
          split
          · exact .inl ⟨⟨_, rfl⟩, rfl, hsecond.trans (Nat.le_succ _)⟩
          · exact .inr ⟨_, rfl, rfl, hsecond, Nat.lt_succ_self _,
              ⟨⟨_, congrArg Prod.fst hcopied⟩, htarget⟩,
              ⟨.of_untouched ⟨rfl, rfl⟩ rfl rfl, htarget, rfl⟩⟩

/-- The hooks of a draft have identifiers that were given out, no two the same. -/
structure Drafted (stripCode : Ptr → Ptr) (plan : Plan) (w : World ε) : Prop where
  nodup : (plan.hooks.map Hook.hookId).Nodup
  below : ∀ hook ∈ plan.hooks, hook.hookId < w.nextId
  fresh : ∀ hook ∈ plan.hooks, Fresh stripCode hook

theorem Drafted.addHook {plan : Plan} {w : World ε} (h : Drafted stripCode plan w)
    (spec : HookSpec) :
    Drafted stripCode (addHook stripCode plan spec w).2.1 (addHook stripCode plan spec w).2.2 := by
  rcases addHook_adds stripCode plan spec w with ⟨-, hplan, hids⟩ | ⟨hook, -, hhooks, hold, hnew, -,
    hfresh⟩
  · rw [hplan]
    exact ⟨h.nodup, fun x hx ↦ (h.below x hx).trans_le hids, h.fresh⟩
  · refine ⟨?_, fun x hx ↦ ?_, fun x hx ↦ ?_⟩
    · rw [hhooks, List.map_append, List.nodup_append]
      refine ⟨h.nodup, List.nodup_singleton _, fun a ha b hb ↦ ?_⟩
      obtain ⟨x, hx, rfl⟩ := List.mem_map.mp ha
      rw [List.map_singleton, List.mem_singleton] at hb
      rw [hb]
      exact ((h.below x hx).trans_le hold).ne
    · rw [hhooks] at hx
      rcases List.mem_append.mp hx with hx | hx
      · exact (h.below x hx).trans_le (hold.trans hnew.le)
      · rw [List.mem_singleton.mp hx]
        exact hnew
    · rw [hhooks] at hx
      rcases List.mem_append.mp hx with hx | hx
      · exact h.fresh x hx
      · rw [List.mem_singleton.mp hx]
        exact hfresh

variable (host : Host ε) (backendIds : Option Text)

/-- What has become of an entry: if it has a hook, the hook is the plan's copy of its request. -/
def Entered (hooks : List Hook) (op : LegacyOp) (added : Added) : Prop :=
  ∀ hookId, added.hook = some hookId → ∃ spec, routed host backendIds op.spec = some spec ∧
    ∃ hook ∈ hooks, hook.hookId = hookId ∧ Carries ε stripCode spec hook

theorem addSpecs_drafts (ops : List LegacyOp) {plan : Plan} {w : World ε}
    (h : Drafted stripCode plan w) :
    Drafted stripCode (addSpecs stripCode host backendIds ops plan w).2.1
        (addSpecs stripCode host backendIds ops plan w).2.2 ∧
      plan.hooks ⊆ (addSpecs stripCode host backendIds ops plan w).2.1.hooks ∧
      List.Forall₂ (Entered stripCode host backendIds
        (addSpecs stripCode host backendIds ops plan w).2.1.hooks) ops
        (addSpecs stripCode host backendIds ops plan w).1 ∧
      ∀ hook ∈ (addSpecs stripCode host backendIds ops plan w).2.1.hooks, hook ∈ plan.hooks ∨
        ∃ added ∈ (addSpecs stripCode host backendIds ops plan w).1,
          added.hook = some hook.hookId := by
  induction ops generalizing plan w with
  | nil => exact ⟨h, List.Subset.refl _, .nil, fun _ ↦ .inl⟩
  | cons op rest ih =>
    cases hrouted : routed host backendIds op.spec with
    | none =>
      obtain ⟨status, -, heq⟩ := addSpecs_none stripCode host backendIds hrouted rest plan w
      obtain ⟨hdrafted, hkept, hentered, hfrom⟩ := ih h
      rw [heq]
      refine ⟨hdrafted, hkept, .cons (fun _ hnone ↦ by cases hnone) hentered, fun hook hhook ↦ ?_⟩
      refine (hfrom hook hhook).imp_right ?_
      rintro ⟨added, hadded, hhas⟩
      exact ⟨added, List.mem_cons_of_mem _ hadded, hhas⟩
    | some spec =>
      obtain ⟨hdrafted, hkept, hentered, hfrom⟩ := ih (h.addHook stripCode spec)
      have hadds := addHook_adds stripCode plan spec w
      rw [addSpecs_some stripCode host backendIds hrouted]
      have hmore : plan.hooks ⊆ (addHook stripCode plan spec w).2.1.hooks := by
        rcases hadds with ⟨-, hplan, -⟩ | ⟨hook, -, hhooks, -⟩
        · rw [hplan]
          exact List.Subset.refl _
        · rw [hhooks]
          exact List.subset_append_left _ _
      refine ⟨hdrafted, List.Subset.trans hmore hkept, .cons ?_ hentered, fun hook hhook ↦ ?_⟩
      · intro hookId hhas
        rcases hadds with ⟨⟨status, herror⟩, -⟩ | ⟨hook, hok, hhooks, -, -, hcarries, -⟩
        · rw [herror] at hhas
          cases hhas
        · rw [hok] at hhas
          cases hhas
          refine ⟨spec, hrouted, hook, hkept ?_, rfl, hcarries⟩
          rw [hhooks]
          exact List.mem_append_right _ (List.mem_singleton_self hook)
      · rcases hfrom hook hhook with hhook | ⟨added, hadded, hhas⟩
        · rcases hadds with ⟨-, hplan, -⟩ | ⟨new, hok, hhooks, -⟩
          · rw [hplan] at hhook
            exact .inl hhook
          · rw [hhooks] at hhook
            rcases List.mem_append.mp hhook with hhook | hhook
            · exact .inl hhook
            · refine .inr ⟨_, List.mem_cons_self, ?_⟩
              rw [hok, List.mem_singleton.mp hhook]
              rfl
        · exact .inr ⟨added, List.mem_cons_of_mem _ hadded, hhas⟩

/-! ## What is left of them -/

section Leaves

variable {engines stripCode}

theorem Outcome.preparesTo_unmutated {o o' : Outcome} (h : o.preparesTo o')
    (ho : o.mutated = false) : o'.mutated = false := by
  cases o with
  | analyzed => rcases h with rfl | rfl | rfl | rfl | rfl | rfl <;> rfl
  | prepared => rcases h with rfl | rfl <;> rfl
  | _ =>
    cases h
    exact ho

theorem analyzePlan_fresh {runtime : Runtime} {plan : Plan}
    (h : ∀ hook ∈ plan.hooks, Fresh stripCode hook) (w : World ε) :
    ∀ hook ∈ (analyzePlan engines runtime plan w).2.1.hooks, Fresh stripCode hook := by
  refine analyzePlan_each (fun hook env hfresh ↦ ⟨analyzeOne_bare engines _ _ _ hfresh.bare env,
    analyzeOne_keyed _ _ _ hfresh.keyed env, ?_⟩) h w
  rw [analyzeOne]
  dsimp only
  split <;> rfl

theorem preparePlan_fresh {plan : Plan} (h : ∀ hook ∈ plan.hooks, Fresh stripCode hook)
    (w : World ε) : ∀ hook ∈ (preparePlan engines plan w).2.1.hooks, Fresh stripCode hook := by
  have hbare := preparePlan_bare engines (fun hook hhook ↦ (h hook hhook).bare) w
  obtain ⟨-, hooks, state, hplan, hprepares, -⟩ := preparePlan_spec engines plan w
  rw [hplan] at hbare ⊢
  intro hook' hhook'
  obtain ⟨hook, hhook, hprepare⟩ := Pointwise.mem_right hprepares hhook'
  exact ⟨hbare hook' hhook', hprepare.toSame.keyed (h hook hhook).keyed,
    Outcome.preparesTo_unmutated hprepare.outcome (h hook hhook).unmutated⟩

/-- What a commit leaves of hooks that are not yet anybody's. -/
structure Leaves (engines : EngineRef → Engine ε) (stripCode : Ptr → Ptr) (hooks hooks' : List Hook)
    (history : List Event) : Prop where
  keeps : List.Forall₂ Keeps hooks hooks'
  coherent : ∀ hook ∈ hooks', hook.Coherent
  keyed : ∀ hook ∈ hooks', hook.Keyed stripCode
  recorded : ∀ hook ∈ hooks', hook.result.outcome.mutated = true → hook.Recorded engines history

end Leaves

end HookKit.Legacy
