import Mathlib.Data.List.MinMax
import Mathlib.Data.Prod.Lex
import HookKit.Lib.GreedyOrder
import HookKit.Plan.Order
import HookKit.Plan.Dependencies

/-!
# The commit order of a plan

Hooks name in `commit_after` only hooks that were in the plan before them.  The selection of
`hk_build_commit_order` therefore never gets stuck, and what it selects is the order that the keys
and the dependencies ask for.

* `Links` — every dependency of a hook comes earlier in the plan; `links_run` keeps it in every run.
* `CommitOrder` — the order in which the prepared hooks of a plan have to be committed.
* `selectNext_least` — the inner loop finds the least hook that is ready.
* `buildCommitOrder_run` — every plan of every run has its commit order.
-/

set_option autoImplicit false

namespace HookKit

open GreedyOrder

variable {ε : Type} {engines : EngineRef → Engine ε}

/-! ## What the order has to be -/

/-- Every hook that is named in `commit_after` comes before the hook that names it. -/
def Links (hooks : List Hook) : Prop :=
  ∀ i hook, hooks[i]? = some hook → ∀ id ∈ hook.spec.after, hookIndex hooks id < i

/-- The hook at `i` names the hook at `j` in `commit_after`. -/
def DependsOn (hooks : List Hook) (i j : Nat) : Prop :=
  ∃ hook, hooks[i]? = some hook ∧ ∃ id ∈ hook.spec.after, hookIndex hooks id = j

/-- What hooks are ordered by: domain order, commit order, add index. -/
def orderKey (domains : List Domain) (hooks : List Hook) (i : Nat) : ℕ ×ₗ ℕ ×ₗ ℕ :=
  toLex (((hooks[i]?).map (hookDomainOrder domains)).getD 0,
    toLex (((hooks[i]?).map fun hook ↦ hook.spec.commitOrder).getD 0, i))

/-- The order in which the prepared hooks of a plan have to be committed. -/
structure CommitOrder (domains : List Domain) (hooks : List Hook) (order : List Nat) : Prop where
  nodup : order.Nodup
  complete : ∀ i, i ∈ order ↔ PreparedAt hooks i
  dependencies : ∀ k i, order[k]? = some i → ∀ j, DependsOn hooks i j → PreparedAt hooks j →
    j ∈ order.take k
  least : ∀ k i, order[k]? = some i → ∀ j, PreparedAt hooks j → j ∉ order.take k →
    (∀ d, DependsOn hooks j d → PreparedAt hooks d → d ∈ order.take k) →
    orderKey domains hooks i ≤ orderKey domains hooks j

/-! ## Links -/

theorem hookIndex_eq_of_map {hooks hooks' : List Hook}
    (h : hooks'.map Hook.hookId = hooks.map Hook.hookId) (id : Id) :
    hookIndex hooks' id = hookIndex hooks id := by
  have hmap : ∀ l : List Hook,
      hookIndex l id = (l.map Hook.hookId).findIdx fun i ↦ decide (i = id) := by
    intro l
    rw [hookIndex, List.findIdx_map]
    rfl
  rw [hmap, hmap, h]

theorem Links.nil : Links [] := by
  intro i hook h
  cases h

/-- A hook is never added before the hooks it names. -/
theorem Links.append {hooks : List Hook} (h : Links hooks) {hook : Hook}
    (hafter : ∀ id ∈ hook.spec.after, ∃ earlier ∈ hooks, earlier.hookId = id) :
    Links (hooks ++ [hook]) := by
  -- where a named hook already is, the new one is not found
  have hindex : ∀ id, hookIndex hooks id < hooks.length →
      hookIndex (hooks ++ [hook]) id = hookIndex hooks id := by
    intro id hid
    rw [hookIndex, List.findIdx_append]
    exact if_pos hid
  intro i other hi id hid
  rcases Nat.lt_or_ge i hooks.length with hlt | hge
  · rw [List.getElem?_append_left hlt] at hi
    have hold := h i other hi id hid
    rw [hindex id (hold.trans hlt)]
    exact hold
  · rw [List.getElem?_append_right hge] at hi
    obtain ⟨hat, hmem⟩ := List.getElem?_eq_some_iff.1 hi
    simp only [List.length_singleton, Nat.lt_one_iff] at hat
    simp only [hat, List.getElem_cons_zero] at hmem
    subst hmem
    obtain ⟨earlier, hearlier, hname⟩ := hafter id hid
    have hfound : hookIndex hooks id < hooks.length :=
      List.findIdx_lt_length_of_exists ⟨earlier, hearlier, decide_eq_true hname⟩
    rw [hindex id hfound]
    omega

/-- What keeps the identifiers and the requests keeps the links. -/
theorem Links.mono {R : Hook → Hook → Prop} {hooks hooks' : List Hook} (h : Links hooks)
    (hrel : List.Forall₂ R hooks hooks') (hid : ∀ x y, R x y → y.hookId = x.hookId)
    (hspec : ∀ x y, R x y → y.spec = x.spec) : Links hooks' := by
  intro i hook hget id hmem
  obtain ⟨before, hbefore, hR⟩ := Pointwise.getElem?_right hrel hget
  rw [hspec before hook hR] at hmem
  rw [hookIndex_eq_of_map (Pointwise.map_eq hrel Hook.hookId hid)]
  exact h i before hbefore id hmem

theorem admissible_after {plan : Plan} {spec : HookSpec} (h : admissible plan spec = .ok ()) :
    ∀ id ∈ spec.after, ∃ earlier ∈ plan.hooks, earlier.hookId = id := by
  rw [admissible] at h
  split_ifs at h
  split at h
  · cases h
  · rename_i after hafter
    split_ifs at h with hall
    intro id hid
    rw [HookSpec.after, hafter] at hid
    obtain ⟨entry, hentry, rfl⟩ := List.mem_filterMap.1 hid
    have hnamed := List.all_eq_true.1 hall _ hentry
    simpa using hnamed

/-- What adding a hook does to the hooks of a draft. -/
theorem addHook_links (stripCode : Ptr → Ptr) (plan : Plan) (spec : HookSpec) (w : World ε)
    (h : Links plan.hooks) : Links (addHook stripCode plan spec w).2.1.hooks := by
  rw [addHook]
  split
  · exact h
  rename_i hadmissible
  split
  · exact h
  split
  · exact h
  split
  · exact h
  split
  · exact h
  split
  · exact h
  split
  · exact h
  dsimp only
  split
  · exact h
  · exact h.append fun id hid ↦ admissible_after hadmissible id hid

namespace System

/-- Every plan of the process is linked. -/
def Linked (s : System ε) : Prop := ∀ slot plan, s.plans slot = some plan → Links plan.hooks

theorem Linked.update {s s' : System ε} (h : s.Linked) {slot : Nat} {plan : Plan}
    (hplan : Links plan.hooks) (hs' : s'.plans = Function.update s.plans slot (some plan)) :
    s'.Linked := by
  intro other plan' hplan'
  rw [hs'] at hplan'
  by_cases heq : other = slot
  · subst heq
    rw [Function.update_self] at hplan'
    cases hplan'
    exact hplan
  · rw [Function.update_of_ne heq] at hplan'
    exact h other plan' hplan'

/-- **Every call keeps the plans linked.** -/
theorem Linked.step {s : System ε} (h : s.Linked) (hsound : s.Sound) (stripCode : Ptr → Ptr)
    (op : Op ε) : (s.step engines stripCode op).Linked := by
  cases op with
  | createPlan slot runtime =>
    rw [System.step]
    split
    · exact h
    · obtain ⟨-, hcreated⟩ := createPlan_spec runtime s.world
      split
      · rename_i plan w heq
        rw [heq] at hcreated
        have hlinks : Links plan.hooks := by
          rw [(hcreated plan rfl).2]
          exact .nil
        exact h.update hlinks rfl
      · exact h
  | defineDomain slot spec =>
    rw [System.step, onPlan]
    split
    · exact h
    · rename_i plan hplan
      have hspec := (defineDomain_spec plan spec s.world).2
      generalize HookKit.defineDomain plan spec s.world = called at hspec ⊢
      obtain ⟨result, plan', w'⟩ := called
      have hkept : plan'.hooks = plan.hooks := hspec.elim (congrArg Plan.hooks) fun h ↦ h.2.2
      exact h.update (hkept ▸ h slot plan hplan) rfl
  | addHook slot spec =>
    rw [System.step, onPlan]
    split
    · exact h
    · rename_i plan hplan
      have hlinks := addHook_links stripCode plan spec s.world (h slot plan hplan)
      generalize HookKit.addHook stripCode plan spec s.world = called at hlinks ⊢
      obtain ⟨result, plan', w'⟩ := called
      exact h.update hlinks rfl
  | analyze slot =>
    rw [System.step, onPlan]
    split
    · exact h
    · rename_i plan hplan
      have hspec := (analyzePlan_spec engines (s.runtimes plan.runtime) plan s.world).2
      generalize analyzePlan engines (s.runtimes plan.runtime) plan s.world = called at hspec ⊢
      obtain ⟨status, plan', w'⟩ := called
      rcases hspec with heq | ⟨-, -, -, hhooks⟩
      · exact h.update ((congrArg Plan.hooks heq) ▸ h slot plan hplan) rfl
      · exact h.update ((h slot plan hplan).mono hhooks (fun _ _ ha ↦ ha.hookId)
          fun _ _ ha ↦ ha.spec) rfl
  | prepare slot =>
    rw [System.step, onPlan]
    split
    · exact h
    · rename_i plan hplan
      obtain ⟨-, hooks, state, heq, hprepares, -⟩ := preparePlan_spec engines plan s.world
      generalize preparePlan engines plan s.world = called at heq ⊢
      obtain ⟨status, plan', w'⟩ := called
      dsimp only at heq
      subst heq
      exact h.update ((h slot plan hplan).mono hprepares (fun _ _ hp ↦ hp.hookId)
        fun _ _ hp ↦ hp.spec) rfl
  | commit slot =>
    rw [System.step, onPlan]
    split
    · exact h
    · rename_i plan hplan
      have hnodup := hsound.nodup (.slot slot)
      have hacc := hsound.accounted (.slot slot)
      have hheld : s.held (.slot slot) = plan.hooks := planHooks_some hplan
      rw [hheld] at hnodup hacc
      dsimp only
      generalize hcall : commitPlan engines (s.runtimes plan.runtime) plan s.world = called
      obtain ⟨status, plan', runtime', w'⟩ := called
      have hcommits := (commitPlan_sound hcall hnodup hacc).commits
      exact h.update ((h slot plan hplan).mono hcommits (fun _ _ hc ↦ hc.hookId)
        fun _ _ hc ↦ hc.spec) rfl
  | releasePlan slot =>
    rw [System.step, onPlan]
    split
    · exact h
    · rename_i plan hplan
      dsimp only
      intro other plan' hplan'
      have hother : Function.update s.plans slot none other = some plan' := hplan'
      by_cases heq : other = slot
      · subst heq
        rw [Function.update_self] at hother
        cases hother
      · rw [Function.update_of_ne heq] at hother
        exact h other plan' hother
  | drain runtime => exact h
  | releaseRuntime runtime => exact h
  | register runtime registered => exact h
  | outside change => exact h

/-- **In every run the plans are linked.** -/
theorem links_run (engines : EngineRef → Engine ε) (stripCode : Ptr → Ptr) {s : System ε}
    (hstart : s.Initial) (ops : List (Op ε)) : (s.run engines stripCode ops).Linked := by
  refine (run_invariant (fun s ↦ s.Sound ∧ s.Linked) (fun s op h ↦
    ⟨h.1.stepped (step_stepped engines stripCode s op), h.2.step h.1 stripCode op⟩) s ops
    ⟨hstart.sound, fun slot plan hplan ↦ ?_⟩).2
  rw [hstart.plans slot] at hplan
  cases hplan

end System

/-! ## The selection -/

section

variable {domains : List Domain} {hooks : List Hook} {processed : Nat → Bool} {placed : List Nat}

theorem mem_preparedIndices {i : Nat} : i ∈ preparedIndices hooks ↔ PreparedAt hooks i := by
  rw [preparedIndices, List.mem_filter, List.mem_range, PreparedAt]
  constructor
  · rintro ⟨hlt, hany⟩
    rw [List.getElem?_eq_getElem hlt] at hany
    exact ⟨hooks[i], List.getElem?_eq_getElem hlt, by simpa using hany⟩
  · rintro ⟨hook, hget, hprepared⟩
    obtain ⟨hlt, -⟩ := List.getElem?_eq_some_iff.1 hget
    refine ⟨hlt, ?_⟩
    rw [hget]
    exact decide_eq_true hprepared

theorem commitOrderBefore_iff {left right : Hook} {i j : Nat} (hi : hooks[i]? = some left)
    (hj : hooks[j]? = some right) :
    commitOrderBefore domains left i right j = true ↔
      orderKey domains hooks i < orderKey domains hooks j := by
  rw [commitOrderBefore, orderKey, orderKey, hi, hj]
  simp only [Option.map_some, Option.getD_some, Prod.Lex.toLex_lt_toLex]
  split_ifs with hdomain horder
  · simp [hdomain]
  · rw [not_not] at hdomain
    simp [hdomain, horder]
  · rw [not_not] at hdomain horder
    simp [hdomain, horder]

theorem orderKey_injective {i j : Nat} (h : orderKey domains hooks i = orderKey domains hooks j) :
    i = j := by
  rw [orderKey, orderKey, toLex_inj, Prod.mk.injEq, toLex_inj, Prod.mk.injEq] at h
  exact h.2.2

/-- The flags of the selection: what is settled before it, and what it has placed. -/
def Marks (hooks : List Hook) (placed : List Nat) (processed : Nat → Bool) : Prop :=
  ∀ i < hooks.length, (processed i = true ↔ ¬PreparedAt hooks i ∨ i ∈ placed)

/-- A hook that may come next. -/
abbrev ReadyHook (hooks : List Hook) (placed : List Nat) (i : Nat) : Prop :=
  Ready (preparedIndices hooks) (DependsOn hooks) placed i

theorem dependenciesProcessed_iff (hlinks : Links hooks) (hmarks : Marks hooks placed processed)
    {i : Nat} {hook : Hook} (hi : hooks[i]? = some hook) :
    dependenciesProcessed hooks processed hook = true ↔
      ∀ j ∈ preparedIndices hooks, DependsOn hooks i j → j ∈ placed := by
  obtain ⟨hlt, -⟩ := List.getElem?_eq_some_iff.1 hi
  simp only [dependenciesProcessed, List.all_eq_true, Bool.and_eq_true, decide_eq_true_eq]
  constructor
  · rintro h j hj ⟨other, hother, id, hid, rfl⟩
    cases hi.symm.trans hother
    have hindex := hlinks i hook hi id hid
    rcases (hmarks _ (hindex.trans hlt)).1 (h id hid).2 with hsettled | hplaced
    · exact absurd (mem_preparedIndices.1 hj) hsettled
    · exact hplaced
  · intro h id hid
    have hindex := hlinks i hook hi id hid
    refine ⟨(hindex.trans hlt).ne, (hmarks _ (hindex.trans hlt)).2 ?_⟩
    by_cases hprepared : PreparedAt hooks (hookIndex hooks id)
    · exact .inr (h _ (mem_preparedIndices.2 hprepared) ⟨hook, hi, id, hid, rfl⟩)
    · exact .inl hprepared

theorem readyHook_iff (hlinks : Links hooks) (hmarks : Marks hooks placed processed) {i : Nat}
    {hook : Hook} (hi : hooks[i]? = some hook) :
    ¬(processed i ∨ hook.result.outcome ≠ .prepared ∨
        !dependenciesProcessed hooks processed hook) ↔ ReadyHook hooks placed i := by
  obtain ⟨hlt, -⟩ := List.getElem?_eq_some_iff.1 hi
  have hprepared : PreparedAt hooks i ↔ hook.result.outcome = .prepared := by
    constructor
    · rintro ⟨other, hother, h⟩
      cases hi.symm.trans hother
      exact h
    · exact fun h ↦ ⟨hook, hi, h⟩
  simp only [not_or, not_not, Bool.not_eq_true', Bool.not_eq_false,
    dependenciesProcessed_iff hlinks hmarks hi, hmarks i hlt]
  constructor
  · rintro ⟨⟨-, hplaced⟩, houtcome, hneeds⟩
    exact ⟨mem_preparedIndices.2 (hprepared.2 houtcome), hplaced, hneeds⟩
  · intro h
    have hitem := mem_preparedIndices.1 h.item
    exact ⟨⟨hitem, h.unplaced⟩, hprepared.1 hitem, h.needed⟩

/-- **The inner loop finds the least hook that is ready**, and nothing only if none is. -/
theorem selectNext_least (hlinks : Links hooks) (hmarks : Marks hooks placed processed) :
    (∀ i, selectNext domains hooks processed = some i → ReadyHook hooks placed i ∧
      ∀ j, ReadyHook hooks placed j → orderKey domains hooks i ≤ orderKey domains hooks j) ∧
    (selectNext domains hooks processed = none → ∀ j, ¬ReadyHook hooks placed j) := by
  classical
  have hfold : ∀ (l : List Nat) (best : Option Nat), (∀ i ∈ l, i < hooks.length) →
      (∀ b, best = some b → b < hooks.length) →
      l.foldl (selectStep domains hooks processed) best =
        (l.filter fun i ↦ ReadyHook hooks placed i).foldl
          (List.argAux fun b c ↦ orderKey domains hooks b < orderKey domains hooks c) best := by
    intro l
    induction l with
    | nil => exact fun best _ _ ↦ rfl
    | cons i rest ih =>
      intro best hl hbest
      obtain ⟨candidate, hi⟩ : ∃ candidate, hooks[i]? = some candidate :=
        ⟨_, List.getElem?_eq_getElem (hl i List.mem_cons_self)⟩
      have hrest := fun j hj ↦ hl j (List.mem_cons_of_mem i hj)
      rw [List.foldl_cons, List.filter_cons, selectStep, hi]
      dsimp only
      by_cases hready : ReadyHook hooks placed i
      · rw [if_neg ((readyHook_iff hlinks hmarks hi).2 hready), if_pos (decide_eq_true hready),
          List.foldl_cons]
        cases best with
        | none =>
          refine ih (some i) hrest fun b hb ↦ ?_
          cases hb
          exact hl i List.mem_cons_self
        | some b =>
          obtain ⟨current, hb⟩ : ∃ current, hooks[b]? = some current :=
            ⟨_, List.getElem?_eq_getElem (hbest b rfl)⟩
          dsimp only [List.argAux]
          rw [hb]
          dsimp only
          by_cases hbefore : commitOrderBefore domains candidate i current b = true
          · rw [if_pos hbefore, if_pos ((commitOrderBefore_iff hi hb).1 hbefore)]
            refine ih (some i) hrest fun b hb ↦ ?_
            cases hb
            exact hl i List.mem_cons_self
          · rw [if_neg hbefore, if_neg (mt (commitOrderBefore_iff hi hb).2 hbefore)]
            exact ih (some b) hrest hbest
      · rw [if_pos (not_not.1 (mt (readyHook_iff hlinks hmarks hi).1 hready)),
          if_neg (mt of_decide_eq_true hready)]
        exact ih best hrest hbest
  have hargmin : selectNext domains hooks processed =
      ((List.range hooks.length).filter fun i ↦ ReadyHook hooks placed i).argmin
        (orderKey domains hooks) :=
    hfold _ none (fun i hi ↦ List.mem_range.1 hi) (by simp)
  have hmem : ∀ {j}, ReadyHook hooks placed j →
      j ∈ (List.range hooks.length).filter fun i ↦ ReadyHook hooks placed i := by
    intro j hj
    obtain ⟨hook, hget, -⟩ := mem_preparedIndices.1 hj.item
    obtain ⟨hlt, -⟩ := List.getElem?_eq_some_iff.1 hget
    exact List.mem_filter.2 ⟨List.mem_range.2 hlt, decide_eq_true hj⟩
  rw [hargmin]
  refine ⟨fun i hi ↦ ⟨?_, fun j hj ↦ List.le_of_mem_argmin (hmem hj) hi⟩, fun h j hj ↦ ?_⟩
  · exact of_decide_eq_true (List.mem_filter.1 (List.argmin_mem hi)).2
  · have hempty := hmem hj
    rw [List.argmin_eq_none.1 h] at hempty
    exact absurd hempty List.not_mem_nil

theorem Marks.update (hmarks : Marks hooks placed processed) (i : Nat) :
    Marks hooks (placed ++ [i]) (Function.update processed i true) := by
  intro j hj
  rw [List.mem_append, List.mem_singleton]
  by_cases heq : j = i
  · subst heq
    rw [Function.update_self]
    exact iff_of_true rfl (.inr (.inr rfl))
  · rw [Function.update_of_ne heq, hmarks j hj]
    exact or_congr_right (or_iff_left heq).symm

/-- How many hooks are still to be placed. -/
def unplaced (hooks : List Hook) (placed : List Nat) : Nat :=
  (preparedIndices hooks).countP fun i ↦ i ∉ placed

theorem nodup_preparedIndices : (preparedIndices hooks).Nodup := List.nodup_range.filter _

theorem unplaced_append {i : Nat} (hi : i ∈ preparedIndices hooks) (hplaced : i ∉ placed) :
    unplaced hooks placed = unplaced hooks (placed ++ [i]) + 1 := by
  obtain ⟨before, after, heq⟩ := List.append_of_mem hi
  have hnodup : (before ++ i :: after).Nodup := heq ▸ nodup_preparedIndices
  rw [List.nodup_append, List.nodup_cons] at hnodup
  -- on the others nothing changes
  have hothers : ∀ l : List Nat, i ∉ l →
      l.countP (fun j ↦ decide (j ∉ placed ++ [i])) = l.countP fun j ↦ decide (j ∉ placed) := by
    intro l hl
    refine List.countP_congr fun j hj ↦ ?_
    have hne : j ≠ i := fun h ↦ hl (h ▸ hj)
    simp [hne]
  have hbefore : i ∉ before := fun h ↦ hnodup.2.2 i h i List.mem_cons_self rfl
  rw [unplaced, unplaced, heq, List.countP_append, List.countP_append,
    List.countP_cons_of_pos (by simpa using hplaced), List.countP_cons_of_neg (by simp),
    hothers before hbefore, hothers after hnodup.2.1.1]
  rfl

/-- **The selection never gets stuck**, and takes the least hook that is ready every time. -/
theorem selectAll_greedy (hlinks : Links hooks) {steps : Nat}
    (hmarks : Marks hooks placed processed) (hsteps : unplaced hooks placed = steps) :
    ∃ order, selectAll domains hooks steps processed = some order ∧
      Greedy (preparedIndices hooks) (DependsOn hooks) (orderKey domains hooks) placed order := by
  induction steps generalizing placed processed with
  | zero =>
    refine ⟨[], rfl, .done fun i hi ↦ ?_⟩
    simpa using List.countP_eq_zero.1 hsteps i hi
  | succ steps ih =>
    have hleft : 0 < (preparedIndices hooks).countP fun i ↦ decide (i ∉ placed) := by
      rw [unplaced] at hsteps
      omega
    obtain ⟨i, hi, hplaced⟩ := List.countP_pos_iff.1 hleft
    -- dependencies come earlier in the plan, so some hook is ready
    have hearlier : ∀ a ∈ preparedIndices hooks, ∀ b ∈ preparedIndices hooks,
        DependsOn hooks a b → id b < id a := by
      rintro a - b - ⟨hook, hget, dependency, hdependency, rfl⟩
      exact hlinks a hook hget dependency hdependency
    obtain ⟨j, hj⟩ := exists_ready hearlier hi (of_decide_eq_true hplaced)
    obtain ⟨hsome, hnone⟩ := @selectNext_least domains hooks processed placed hlinks hmarks
    rw [selectAll]
    cases hnext : selectNext domains hooks processed with
    | none => exact absurd hj (hnone hnext j)
    | some best =>
      obtain ⟨hready, hleast⟩ := hsome best hnext
      obtain ⟨rest, hrest, hgreedy⟩ := ih (hmarks.update best) (by
        have := unplaced_append hready.item hready.unplaced
        omega)
      dsimp only
      rw [hrest]
      exact ⟨best :: rest, rfl, .next hready hleast hgreedy⟩

/-- The flags the selection starts with. -/
theorem marks_initial :
    Marks hooks [] fun i ↦ (hooks[i]?).any fun hook ↦ hook.result.outcome ≠ .prepared := by
  intro i hi
  have hget := List.getElem?_eq_getElem hi
  dsimp only
  rw [hget, Option.any_some, decide_eq_true_eq]
  constructor
  · rintro h
    refine .inl ?_
    rintro ⟨hook, hhook, hprepared⟩
    cases hget.symm.trans hhook
    exact h hprepared
  · rintro (h | h)
    · exact fun hprepared ↦ h ⟨_, hget, hprepared⟩
    · exact absurd h List.not_mem_nil

theorem selectAll_initial (hlinks : Links hooks) :
    ∃ order, selectAll domains hooks (preparedIndices hooks).length
        (fun i ↦ (hooks[i]?).any fun hook ↦ hook.result.outcome ≠ .prepared) = some order ∧
      Greedy (preparedIndices hooks) (DependsOn hooks) (orderKey domains hooks) [] order := by
  refine selectAll_greedy hlinks marks_initial ?_
  rw [unplaced, List.countP_eq_length]
  exact fun i _ ↦ decide_eq_true List.not_mem_nil

/-- **Where nothing but the add index tells the hooks apart, add order is the order.** -/
theorem preparedIndices_greedy (hsimple : simpleOrder domains hooks = true) :
    Greedy (preparedIndices hooks) (DependsOn hooks) (orderKey domains hooks) []
      (preparedIndices hooks) := by
  -- one ordering key for all, and no dependencies
  obtain ⟨d, c, hall⟩ : ∃ d c, ∀ i ∈ preparedIndices hooks, ∃ hook, hooks[i]? = some hook ∧
      hook.spec.after = [] ∧ hookDomainOrder domains hook = d ∧ hook.spec.commitOrder = c := by
    rw [simpleOrder] at hsimple
    have hmem : ∀ i ∈ preparedIndices hooks, ∃ hook, hooks[i]? = some hook ∧
        hook ∈ hooks.filter fun hook ↦ decide (hook.result.outcome = .prepared) := by
      intro i hi
      obtain ⟨hook, hget, hprepared⟩ := mem_preparedIndices.1 hi
      exact ⟨hook, hget,
        List.mem_filter.2 ⟨List.mem_of_getElem? hget, decide_eq_true hprepared⟩⟩
    split at hsimple
    · rename_i hnone
      refine ⟨0, 0, fun i hi ↦ ?_⟩
      obtain ⟨hook, -, hin⟩ := hmem i hi
      rw [hnone] at hin
      exact absurd hin List.not_mem_nil
    · rename_i first rest hsome
      refine ⟨hookDomainOrder domains first, first.spec.commitOrder, fun i hi ↦ ?_⟩
      obtain ⟨hook, hget, hin⟩ := hmem i hi
      have hkey := List.all_eq_true.1 hsimple hook hin
      simp only [Bool.and_eq_true, decide_eq_true_eq] at hkey
      exact ⟨hook, hget, hkey.1.1, hkey.1.2, hkey.2⟩
  refine .of_sorted (fun i hi j _ hdepends ↦ ?_)
    (fun i ↦ ⟨fun hi ↦ ⟨hi, List.not_mem_nil⟩, And.left⟩) ?_
  · obtain ⟨hook, hget, hafter, -, -⟩ := hall i hi
    obtain ⟨other, hother, id, hid, -⟩ := hdepends
    cases hget.symm.trans hother
    rw [hafter] at hid
    exact absurd hid List.not_mem_nil
  · have hindices : (preparedIndices hooks).Pairwise (· < ·) := List.pairwise_lt_range.filter _
    refine hindices.imp_of_mem fun {i j} hi hj hlt ↦ ?_
    obtain ⟨left, hleft, -, hdi, hci⟩ := hall i hi
    obtain ⟨right, hright, -, hdj, hcj⟩ := hall j hj
    refine (commitOrderBefore_iff hleft hright).1 ?_
    rw [commitOrderBefore, hdi, hdj, hci, hcj]
    simpa using hlt

theorem commitOrder_of_greedy {order : List Nat} (h : Greedy (preparedIndices hooks)
    (DependsOn hooks) (orderKey domains hooks) [] order) : CommitOrder domains hooks order := by
  refine ⟨h.nodup, fun i ↦ ?_, fun k i hi j hdepends hprepared ↦ ?_,
    fun k i hi j hprepared hplaced hneeds ↦ ?_⟩
  · rw [h.mem_iff, mem_preparedIndices]
    exact and_iff_left List.not_mem_nil
  · exact (h.position hi).1.needed j (mem_preparedIndices.2 hprepared) hdepends
  · exact (h.position hi).2 j ⟨mem_preparedIndices.2 hprepared, hplaced,
      fun d hd hdepends ↦ hneeds d hdepends (mem_preparedIndices.1 hd)⟩

end

/-- **The commit order.**  Whatever has happened, a plan has its commit order, which is found as
long as memory lasts; and the short cut for plans without dependencies and with one ordering key
finds what the selection would find. -/
theorem buildCommitOrder_run (engines : EngineRef → Engine ε) (stripCode : Ptr → Ptr)
    {s : System ε} (hstart : s.Initial) (ops : List (Op ε)) {slot : Nat} {plan : Plan}
    (hplan : (s.run engines stripCode ops).plans slot = some plan) (w : World ε)
    (hfirst : w.alloc.1 = true) (hsecond : w.alloc.2.alloc.1 = true) :
    ∃ order, (buildCommitOrder plan.domains plan.hooks w).1 = some order ∧
      CommitOrder plan.domains plan.hooks order ∧
      (simpleOrder plan.domains plan.hooks = true →
        selectAll plan.domains plan.hooks (preparedIndices plan.hooks).length
          (fun i ↦ (plan.hooks[i]?).any fun hook ↦ hook.result.outcome ≠ .prepared) =
            some order) := by
  have hlinks := System.links_run engines stripCode hstart ops slot plan hplan
  obtain ⟨order, hselected, hgreedy⟩ := @selectAll_initial plan.domains plan.hooks hlinks
  refine ⟨order, ?_, commitOrder_of_greedy hgreedy, fun _ ↦ hselected⟩
  rw [buildCommitOrder]
  split
  · rename_i hempty
    rw [List.length_eq_zero_iff.1 hempty] at hselected
    exact hselected
  · generalize w.alloc = first at hfirst hsecond ⊢
    obtain ⟨ok, w₁⟩ := first
    dsimp only at hfirst hsecond
    subst hfirst
    dsimp only
    split
    · rename_i hsimple
      dsimp only
      rw [(preparedIndices_greedy hsimple).unique
        (fun i _ j _ h ↦ orderKey_injective h) hgreedy]
    · generalize w₁.alloc = second at hsecond ⊢
      obtain ⟨ok, w₂⟩ := second
      dsimp only at hsecond
      subst hsecond
      exact hselected

/-- Two hooks; the first is to be committed after what the second one's order says. -/
def secondFirst : List (Op Bool) :=
  [.createPlan 0 0, .addHook 0 { HookSpec.atAddress "first" 0x1000 1 with commitOrder := 7 },
    .addHook 0 { HookSpec.atAddress "second" 0x2000 2 with commitOrder := 3 }, .analyze 0,
    .prepare 0]

theorem secondFirst_order : ∃ plan order,
    ((System.fresh true fun _ ↦ 0).run (twoTargets true) id secondFirst).plans 0 = some plan ∧
      (buildCommitOrder plan.domains plan.hooks (System.fresh true fun _ ↦ 0).world).1 =
        some order ∧ CommitOrder plan.domains plan.hooks order := by
  obtain ⟨plan, hplan⟩ : ∃ plan, ((System.fresh true fun _ ↦ 0).run (twoTargets true) id
      secondFirst).plans 0 = some plan := Option.isSome_iff_exists.1 (by decide +kernel)
  obtain ⟨order, horder, hcorrect, -⟩ := buildCommitOrder_run (twoTargets true) id
    (System.fresh_initial true fun _ ↦ 0) secondFirst hplan (System.fresh true fun _ ↦ 0).world
    (by decide +kernel) (by decide +kernel)
  exact ⟨plan, order, hplan, horder, hcorrect⟩

end HookKit
