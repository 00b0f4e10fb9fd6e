import HookKit.Plan.Prepare

/-!
# Commit order

`hk_build_commit_order`: the order in which `hk_plan_commit` visits the prepared hooks.
Dependencies outrank the domains' order, that outranks the hooks' own order, and hooks with equal
keys keep the order in which they were added.
-/

set_option autoImplicit false

namespace HookKit

variable {ε : Type}

/-- `hk_plan_hook_index`. -/
def hookIndex (hooks : List Hook) (id : Id) : Nat := hooks.findIdx fun hook ↦ hook.hookId = id

/-- The hook a `commit_after` entry points to. -/
def findHook (hooks : List Hook) (id : Id) : Option Hook :=
  hooks.find? fun hook ↦ hook.hookId = id

/-- `hk_commit_dependencies_processed`. -/
def dependenciesProcessed (hooks : List Hook) (processed : Nat → Bool) (hook : Hook) : Bool :=
  hook.spec.after.all fun dependency ↦
    let index := hookIndex hooks dependency
    index ≠ hooks.length && processed index

/-- `hk_hook_domain_order`. -/
def hookDomainOrder (domains : List Domain) (hook : Hook) : Nat :=
  match domainOf domains hook with
  | none => 0
  | some domain => domain.spec.domainOrder

/-- `hk_commit_order_before`. -/
def commitOrderBefore (domains : List Domain) (left : Hook) (leftIndex : Nat) (right : Hook)
    (rightIndex : Nat) : Bool :=
  let leftDomain := hookDomainOrder domains left
  let rightDomain := hookDomainOrder domains right
  if leftDomain ≠ rightDomain then leftDomain < rightDomain
  else if left.spec.commitOrder ≠ right.spec.commitOrder then
    left.spec.commitOrder < right.spec.commitOrder
  else leftIndex < rightIndex

/-- The indices of the prepared hooks, in the order in which they were added. -/
def preparedIndices (hooks : List Hook) : List Nat :=
  (List.range hooks.length).filter fun i ↦
    (hooks[i]?).any fun hook ↦ hook.result.outcome = .prepared

/-- Whether add order already is the required order: no dependencies, and one ordering key. -/
def simpleOrder (domains : List Domain) (hooks : List Hook) : Bool :=
  let prepared := hooks.filter fun hook ↦ hook.result.outcome = .prepared
  match prepared with
  | [] => true
  | first :: _ =>
    prepared.all fun hook ↦
      hook.spec.after = [] && hookDomainOrder domains hook = hookDomainOrder domains first &&
        hook.spec.commitOrder = first.spec.commitOrder

/-- One candidate of the selection: it may come next if it is prepared and not processed and its
dependencies are, and it replaces the best one so far if it goes before it. -/
def selectStep (domains : List Domain) (hooks : List Hook) (processed : Nat → Bool)
    (best : Option Nat) (i : Nat) : Option Nat :=
  match hooks[i]? with
  | none => best
  | some candidate =>
    if processed i ∨ candidate.result.outcome ≠ .prepared ∨
        !dependenciesProcessed hooks processed candidate then best
    else
      match best with
      | none => some i
      | some b =>
        match hooks[b]? with
        | none => some i
        | some current => if commitOrderBefore domains candidate i current b then some i else best

/-- The inner loop of the selection: the best hook that may come next. -/
def selectNext (domains : List Domain) (hooks : List Hook) (processed : Nat → Bool) : Option Nat :=
  (List.range hooks.length).foldl (selectStep domains hooks processed) none

/-- The outer loop of the selection, one step for each prepared hook. -/
def selectAll (domains : List Domain) (hooks : List Hook) :
    Nat → (Nat → Bool) → Option (List Nat)
  | 0, _ => some []
  | steps + 1, processed =>
    match selectNext domains hooks processed with
    | none => none
    | some best =>
      match selectAll domains hooks steps (Function.update processed best true) with
      | none => none
      | some order => some (best :: order)

/-- `hk_build_commit_order`.  A hook that never prepared counts as processed. -/
def buildCommitOrder (domains : List Domain) (hooks : List Hook) (w : World ε) :
    Option (List Nat) × World ε :=
  if hooks.length = 0 then (some [], w)
  else
    match w.alloc with
    | (false, w) => (none, w)
    | (true, w) =>
      if simpleOrder domains hooks then (some (preparedIndices hooks), w)
      else
        match w.alloc with
        | (false, w) => (none, w)
        | (true, w) =>
          (selectAll domains hooks (preparedIndices hooks).length fun i ↦
            (hooks[i]?).any fun hook ↦ hook.result.outcome ≠ .prepared, w)

/-! ## What an order contains -/

/-- The hook at an index is prepared. -/
def PreparedAt (hooks : List Hook) (i : Nat) : Prop :=
  ∃ hook, hooks[i]? = some hook ∧ hook.result.outcome = .prepared

theorem selectStep_spec {domains : List Domain} {hooks : List Hook} {processed : Nat → Bool}
    {best : Option Nat} {i b : Nat} (h : selectStep domains hooks processed best i = some b) :
    best = some b ∨ (processed b = false ∧ PreparedAt hooks b) := by
  rw [selectStep] at h
  split at h
  · exact .inl h
  · rename_i candidate hget
    split at h
    · exact .inl h
    · rename_i hfree
      push Not at hfree
      have hi : processed i = false ∧ PreparedAt hooks i :=
        ⟨by simpa using hfree.1, candidate, hget, hfree.2.1⟩
      split at h
      · cases h
        exact .inr hi
      · split at h
        · cases h
          exact .inr hi
        · split at h
          · cases h
            exact .inr hi
          · exact .inl h

theorem selectNext_spec {domains : List Domain} {hooks : List Hook} {processed : Nat → Bool}
    {b : Nat} (h : selectNext domains hooks processed = some b) :
    processed b = false ∧ PreparedAt hooks b := by
  rw [selectNext] at h
  suffices hfold : ∀ (l : List Nat) (best : Option Nat),
      (∀ b, best = some b → processed b = false ∧ PreparedAt hooks b) →
      ∀ b, l.foldl (selectStep domains hooks processed) best = some b →
        processed b = false ∧ PreparedAt hooks b from
    hfold _ none (fun _ h ↦ by cases h) b h
  intro l
  induction l with
  | nil => exact fun best hbest b hb ↦ hbest b hb
  | cons i rest ih =>
    intro best hbest b hb
    refine ih (selectStep domains hooks processed best i) (fun b' hb' ↦ ?_) b hb
    rcases selectStep_spec hb' with h | h
    · exact hbest b' h
    · exact h

/-- Whatever is selected was not processed before, and is processed from then on. -/
theorem selectAll_spec {domains : List Domain} {hooks : List Hook} {steps : Nat}
    {processed : Nat → Bool} {order : List Nat}
    (h : selectAll domains hooks steps processed = some order) :
    order.Nodup ∧ ∀ i ∈ order, processed i = false ∧ PreparedAt hooks i := by
  induction steps generalizing processed order with
  | zero =>
    cases h
    exact ⟨.nil, fun i hi ↦ absurd hi List.not_mem_nil⟩
  | succ steps ih =>
    rw [selectAll] at h
    split at h
    · cases h
    · rename_i best hbest
      split at h
      · cases h
      · rename_i rest hrest
        cases h
        obtain ⟨hnodup, hmem⟩ := ih hrest
        refine ⟨List.nodup_cons.mpr ⟨fun hin ↦ ?_, hnodup⟩, fun i hi ↦ ?_⟩
        · have := (hmem best hin).1
          rw [Function.update_self] at this
          cases this
        · rcases List.mem_cons.mp hi with rfl | hi
          · exact selectNext_spec hbest
          · obtain ⟨hprocessed, hprepared⟩ := hmem i hi
            refine ⟨?_, hprepared⟩
            by_cases heq : i = best
            · subst heq
              exact (selectNext_spec hbest).1
            · rwa [Function.update_of_ne heq] at hprocessed

/-- **The commit order** visits prepared hooks, each of them once. -/
theorem buildCommitOrder_spec {domains : List Domain} {hooks : List Hook} {w : World ε}
    {order : List Nat} (h : (buildCommitOrder domains hooks w).1 = some order) :
    order.Nodup ∧ ∀ i ∈ order, PreparedAt hooks i := by
  rw [buildCommitOrder] at h
  split at h
  · cases h
    exact ⟨.nil, fun i hi ↦ absurd hi List.not_mem_nil⟩
  · split at h
    · cases h
    · split at h
      · cases h
        refine ⟨List.nodup_range.filter _, fun i hi ↦ ?_⟩
        have hprepared := (List.mem_filter.mp hi).2
        cases hget : hooks[i]? with
        | none =>
          rw [hget] at hprepared
          cases hprepared
        | some hook =>
          rw [hget] at hprepared
          exact ⟨hook, hget, by simpa using hprepared⟩
      · split at h
        · cases h
        · exact ⟨(selectAll_spec h).1, fun i hi ↦ ((selectAll_spec h).2 i hi).2⟩

end HookKit
