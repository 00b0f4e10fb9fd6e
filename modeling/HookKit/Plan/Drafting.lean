import HookKit.Plan.StorageSteps
import HookKit.Plan.System
import Mathlib.Logic.Relation

/-!
# Plans under construction

A plan while it is a draft, together with the memory that its hooks' targets stand in.  Domains are
defined and hooks are added in any order, and between two calls the caller does what it likes with
everything that does not belong to the plan.

* `Draft.WellFormed` — what holds of every draft.
* `Draft.addHook_failed`, `Draft.defineDomain_failed` — a call that fails leaves nothing behind.
* `plan_construction` — that, for all runs.
-/

set_option autoImplicit false

namespace HookKit

open Heap Relation

variable {ε : Type}

/-! ## Adding a hook -/

/-- The rest of `hk_plan_add_hook_impl`, once the target has been copied. -/
def insertHook (stripCode : Ptr → Ptr) (plan : Plan) (spec : HookSpec) (target : Target)
    (w : World ε) : Except Status Id × Plan × World ε :=
  match targetKeyCopy stripCode target w.env with
  | (none, env) => (.error .outOfMemory, plan, w.setEnv env)
  | (some key, env) =>
    if plan.hooks.any fun hook ↦ hook.targetKey = key then
      (.error .invalidArgument, plan, w.setEnv env)
    else
      match (if spec.after ≠ [] then env.alloc else (true, env)) with
      | (false, env) => (.error .outOfMemory, plan, w.setEnv env)
      | (true, env) =>
        let (hookId, w) := (w.setEnv env).freshId
        match growArray plan.hooks.length plan.hookCapacity w.env with
        | (false, env) => (.error .outOfMemory, plan, w.setEnv env)
        | (true, env) =>
          let hook : Hook := {
            hookId := hookId
            spec := { spec with structSize := sizeofHookSpec, target := target }
            targetKey := key, matchedEngine := none, preparedState := 0
            preparedContinuation := none, installed := none
            result := .added hookId }
          (.ok hookId, { plan with
            hooks := plan.hooks ++ [hook]
            hookCapacity := grownCapacity plan.hooks.length plan.hookCapacity },
            w.setEnv env)

/-- Adding a hook, as `Plan.Build` has it, ends the same way. -/
theorem addHook_eq (stripCode : Ptr → Ptr) (plan : Plan) (spec : HookSpec) (w : World ε) :
    addHook stripCode plan spec w =
      match admissible plan spec with
      | .error status => (.error status, plan, w)
      | .ok () =>
        match w.alloc with
        | (false, w) => (.error .outOfMemory, plan, w)
        | (true, w) =>
          match w.alloc with
          | (false, w) => (.error .outOfMemory, plan, w)
          | (true, w) =>
            match copyTarget spec.target w.env with
            | (.error status, env) => (.error status, plan, w.setEnv env)
            | (.ok target, env) => insertHook stripCode plan spec target (w.setEnv env) := by
  rfl

/-- What `insertHook` does. -/
inductive Inserts (plan : Plan) (spec : HookSpec) (target : Target) (w : World ε) :
    Except Status Id × Plan × World ε → Prop where
  | failed (status : Status) (w' : World ε) (hids : w.nextId ≤ w'.nextId) :
    Inserts plan spec target w (.error status, plan, w')
  | added (hook : Hook) (capacity : Nat) (w' : World ε)
    (hspec : hook.spec = { spec with structSize := sizeofHookSpec, target := target })
    (hkey : ∀ sibling ∈ plan.hooks, sibling.targetKey ≠ hook.targetKey)
    (hold : w.nextId ≤ hook.hookId) (hnew : hook.hookId < w'.nextId) :
    Inserts plan spec target w
      (.ok hook.hookId, { plan with hooks := plan.hooks ++ [hook], hookCapacity := capacity }, w')

theorem insertHook_spec (stripCode : Ptr → Ptr) (plan : Plan) (spec : HookSpec) (target : Target)
    (w : World ε) : Inserts plan spec target w (insertHook stripCode plan spec target w) := by
  rw [insertHook]
  split
  · exact .failed _ _ (Nat.le_refl _)
  rename_i key env hkey
  split
  · exact .failed _ _ (Nat.le_refl _)
  rename_i hdistinct
  split
  · exact .failed _ _ (Nat.le_refl _)
  dsimp only [World.freshId]
  split
  · exact .failed _ _ (Nat.le_succ _)
  · have hadded := @Inserts.added ε plan spec target w
      { hookId := w.nextId
        spec := { spec with structSize := sizeofHookSpec, target := target }
        targetKey := key, matchedEngine := none, preparedState := 0, preparedContinuation := none
        installed := none, result := .added w.nextId }
    refine hadded _ _ rfl (fun sibling hsibling heq ↦ hdistinct ?_) (Nat.le_refl _)
      (Nat.lt_succ_self _)
    exact List.any_eq_true.mpr ⟨sibling, hsibling, decide_eq_true heq⟩

/-- The checks before anything is allocated. -/
structure Admitted (plan : Plan) (spec : HookSpec) : Prop where
  draft : plan.state = .draft
  named : spec.stableHookId.isSome
  distinct : ∀ hook ∈ plan.hooks, hook.spec.stableHookId ≠ spec.stableHookId
  domain : ∀ d, spec.domain = some d → ∃ domain ∈ plan.domains, domain.domainId = d
  after : ∀ d ∈ spec.after, ∃ hook ∈ plan.hooks, hook.hookId = d

/-- A check that was passed. -/
theorem passed {c : Prop} [Decidable c] {status : Status} {rest : Except Status Unit}
    (h : (if c then .error status else rest) = .ok ()) : ¬ c ∧ rest = .ok () := by
  split at h
  · cases h
  · exact ⟨‹_›, h⟩

theorem admissible_spec {plan : Plan} {spec : HookSpec} (h : admissible plan spec = .ok ()) :
    Admitted plan spec := by
  rw [admissible] at h
  obtain ⟨hdraft, h⟩ := passed h
  obtain ⟨-, h⟩ := passed h
  obtain ⟨hnamed, h⟩ := passed h
  obtain ⟨-, h⟩ := passed h
  obtain ⟨-, h⟩ := passed h
  obtain ⟨hdistinct, h⟩ := passed h
  obtain ⟨hdomain, h⟩ := passed h
  refine ⟨not_not.mp hdraft, ?_, fun hook hmem heq ↦ ?_, fun d hd ↦ ?_, fun d hd ↦ ?_⟩
  · rwa [Bool.not_eq_true, Option.isNone_eq_false_iff] at hnamed
  · exact hdistinct (List.any_eq_true.mpr ⟨hook, hmem, decide_eq_true heq⟩)
  · rw [hd] at hdomain
    simpa using hdomain
  · cases hafter : spec.commitAfter with
    | none =>
      rw [hafter] at h
      cases h
    | some after =>
      rw [hafter] at h
      dsimp only at h
      split at h
      · rename_i hall
        rw [HookSpec.after, hafter, Option.getD_some, List.mem_filterMap] at hd
        obtain ⟨entry, hentry, rfl⟩ := hd
        simpa using List.all_eq_true.mp hall _ hentry
      · cases h

/-! ## Drafts -/

/-- The target of a hook as it stands in memory, and the blocks that belong to it. -/
structure StoredTarget where
  hook : Id
  target : RawTarget
  owned : List BlockAddr

/-- A plan that is filled, and the memory. -/
structure Draft (ε : Type) where
  plan : Plan
  stored : List StoredTarget
  heap : BlockHeap
  world : World ε

/-- Whether a memory patch fails to say what it expects to find. -/
def RawTarget.lacksExpected : RawTarget → Bool
  | .memory t => t.expectedBytes.data = 0
  | _ => false

/-- The checks of `hk_plan_add_hook_impl`; those behind the first one all answer the same.  The
target stands in memory, and not in the request. -/
def admissibleRaw (plan : Plan) (spec : HookSpec) (raw : RawTarget) : Except Status Unit :=
  if plan.state = .draft ∧ raw.lacksExpected then .error .invalidArgument
  else admissible plan { spec with target := .swiftVtable }

/-- `hk_plan_add_hook`, with the target in memory.  A hook that is given up gives back its
blocks. -/
def Draft.addHook (stripCode : Ptr → Ptr) (d : Draft ε) (spec : HookSpec) (raw : RawTarget) :
    Option (Except Status Id × Draft ε) :=
  match admissibleRaw d.plan spec raw with
  | .error status => some (.error status, d)
  | .ok () =>
    match d.world.alloc with
    | (false, w) => some (.error .outOfMemory, { d with world := w })
    | (true, w) =>
      match w.alloc with
      | (false, w) => some (.error .outOfMemory, { d with world := w })
      | (true, w) => do
        match ← copyRawTarget d.heap raw ⟨d.heap, w.env⟩ with
        | ((.error status, owned), s) =>
          some (.error status, { d with heap := s.heap.freeAll owned, world := w.setEnv s.env })
        | ((.ok copy, owned), s) => do
          let target ← copy.read s.heap
          match insertHook stripCode d.plan spec target (w.setEnv s.env) with
          | (.error status, plan, w) =>
            some (.error status, ⟨plan, d.stored, s.heap.freeAll owned, w⟩)
          | (.ok hook, plan, w) =>
            some (.ok hook, ⟨plan, d.stored ++ [⟨hook, copy, owned⟩], s.heap, w⟩)

/-- `hk_plan_define_domain`. -/
def Draft.defineDomain (d : Draft ε) (spec : DomainSpec) : Except Status Domain × Draft ε :=
  let result := HookKit.defineDomain d.plan spec d.world
  (result.1, { d with plan := result.2.1, world := result.2.2 })

/-- What can happen to a draft.  Others use the memory and the process too, but leave the blocks of
the plan alone. -/
inductive Draft.Step (stripCode : Ptr → Ptr) : Draft ε → Draft ε → Prop where
  | defineDomain (d : Draft ε) (spec : DomainSpec) : Draft.Step stripCode d (d.defineDomain spec).2
  | addHook {d d' : Draft ε} {spec : HookSpec} {raw : RawTarget} {r : Except Status Id}
      (h : d.addHook stripCode spec raw = some (r, d')) : Draft.Step stripCode d d'
  | others (d : Draft ε) (heap : BlockHeap) (world : World ε)
      (hsame : ∀ stored ∈ d.stored, ∀ a ∈ stored.owned, heap.blocks a = d.heap.blocks a)
      (hnext : d.heap.next ≤ heap.next) (hids : d.world.nextId ≤ world.nextId) :
      Draft.Step stripCode d { d with heap := heap, world := world }

/-- From one draft to another. -/
def Draft.Later (stripCode : Ptr → Ptr) : Draft ε → Draft ε → Prop :=
  ReflTransGen (Draft.Step stripCode)

/-- What can be reached from a plan that has just been created. -/
def Draft.Reached (stripCode : Ptr → Ptr) (d : Draft ε) : Prop :=
  ∃ runtime plan heap, ∃ w w' : World ε, createPlan runtime w = (.ok plan, w') ∧
    Draft.Later stripCode ⟨plan, [], heap, w'⟩ d

/-! ## Invariants -/

/-- A hook's target stands in memory as the plan has it, in blocks of its own. -/
structure Stands (heap : BlockHeap) (hook : Hook) (stored : StoredTarget) : Prop where
  owner : stored.hook = hook.hookId
  keeps : Keeps (stored.target.read ·) hook.spec.target heap stored.owned
  old : ∀ a ∈ stored.owned, a < heap.next

/-- The invariant of a draft. -/
structure Draft.WellFormed (d : Draft ε) : Prop where
  stableIds : d.plan.hooks.Pairwise fun a b ↦ a.spec.stableHookId ≠ b.spec.stableHookId
  targetKeys : d.plan.hooks.Pairwise fun a b ↦ a.targetKey ≠ b.targetKey
  hookIds : d.plan.hooks.Pairwise fun a b ↦ a.hookId ≠ b.hookId
  stableDomainIds : d.plan.domains.Pairwise fun a b ↦ a.spec.stableDomainId ≠ b.spec.stableDomainId
  domainIds : d.plan.domains.Pairwise fun a b ↦ a.domainId ≠ b.domainId
  commitAfter : ∀ (earlier : List Hook) (hook : Hook) (later : List Hook),
    d.plan.hooks = earlier ++ hook :: later →
      ∀ dependency ∈ hook.spec.after, ∃ h ∈ earlier, h.hookId = dependency
  domains : ∀ hook ∈ d.plan.hooks, ∀ domain, hook.spec.domain = some domain →
    ∃ owned ∈ d.plan.domains, owned.domainId = domain
  stands : List.Forall₂ (Stands d.heap) d.plan.hooks d.stored
  issuedHooks : ∀ hook ∈ d.plan.hooks, hook.hookId < d.world.nextId
  issuedDomains : ∀ domain ∈ d.plan.domains, domain.domainId < d.world.nextId

/-- What one hook depends on. -/
def Plan.DependsOn (plan : Plan) (a b : Id) : Prop :=
  ∃ hook ∈ plan.hooks, hook.hookId = a ∧ b ∈ hook.spec.after

/-- Nothing has changed that the caller of a failing call could see. -/
structure Draft.Unchanged (d d' : Draft ε) : Prop where
  plan : d'.plan = d.plan
  stored : d'.stored = d.stored
  blocks : d'.heap.blocks = d.heap.blocks
  next : d.heap.next ≤ d'.heap.next
  ids : d.world.nextId ≤ d'.world.nextId

theorem World.alloc_nextId {w w' : World ε} {ok : Bool} (h : w.alloc = (ok, w')) :
    w'.nextId = w.nextId := by
  cases h
  rfl

/-- The ways adding a hook can end. -/
inductive Draft.Adds (d : Draft ε) (spec : HookSpec) (raw : RawTarget) :
    Except Status Id → Draft ε → Prop where
  | failed {status : Status} {d' : Draft ε} (hsame : d.Unchanged d') :
    Draft.Adds d spec raw (.error status) d'
  | added {hook : Hook} {capacity : Nat} {stored : StoredTarget}
      {heap : BlockHeap} {world : World ε}
    {target : Target} (hadmitted : Admitted d.plan spec) (hsaid : raw.read d.heap = some target)
    (hspec : hook.spec = { spec with structSize := sizeofHookSpec, target := target })
    (hkey : ∀ sibling ∈ d.plan.hooks, sibling.targetKey ≠ hook.targetKey)
    (hold : d.world.nextId ≤ hook.hookId) (hnew : hook.hookId < world.nextId)
    (hgrows : Grows d.heap heap stored.owned) (hstands : Stands heap hook stored) :
    Draft.Adds d spec raw (.ok hook.hookId)
      ⟨{ d.plan with hooks := d.plan.hooks ++ [hook], hookCapacity := capacity },
        d.stored ++ [stored], heap, world⟩

/-- **Adding a hook**: either nothing has changed, or there is one hook more, and its target stands
in memory of its own. -/
theorem Draft.addHook_spec {stripCode : Ptr → Ptr} {d d' : Draft ε}
    {spec : HookSpec} {raw : RawTarget}
    {r : Except Status Id} (h : d.addHook stripCode spec raw = some (r, d')) :
    d.Adds spec raw r d' := by
  rw [Draft.addHook] at h
  split at h
  · cases h
    exact .failed ⟨rfl, rfl, rfl, Nat.le_refl _, Nat.le_refl _⟩
  rename_i hadmissible
  have hadmitted : Admitted d.plan spec := by
    rw [admissibleRaw] at hadmissible
    obtain ⟨hdraft, hnamed, hdistinct, hdomain, hafter⟩ := admissible_spec (passed hadmissible).2
    exact ⟨hdraft, hnamed, hdistinct, hdomain, hafter⟩
  split at h
  · rename_i w halloc
    cases h
    exact .failed ⟨rfl, rfl, rfl, Nat.le_refl _, (World.alloc_nextId halloc).ge⟩
  rename_i w₁ halloc₁
  split at h
  · rename_i w halloc
    cases h
    exact .failed ⟨rfl, rfl, rfl, Nat.le_refl _,
      ((World.alloc_nextId halloc).trans (World.alloc_nextId halloc₁)).ge⟩
  rename_i w₂ halloc₂
  have hids : w₂.nextId = d.world.nextId :=
    (World.alloc_nextId halloc₂).trans (World.alloc_nextId halloc₁)
  obtain ⟨⟨⟨r₁, owned⟩, s⟩, hcopy, h⟩ := Option.bind_eq_some_iff.mp h
  obtain ⟨hgrows, hok⟩ := copyRawTarget_spec d.heap raw ⟨d.heap, w₂.env⟩ _ _ _ hcopy
  have hfreed : (s.heap.freeAll owned).blocks = d.heap.blocks :=
    funext fun a ↦ hgrows.freeAll.same a List.not_mem_nil
  cases r₁ with
  | error status =>
    cases h
    exact .failed ⟨rfl, rfl, hfreed, hgrows.freeAll.next, hids.ge⟩
  | ok copy =>
    obtain ⟨target, hsaid, hkeeps, -⟩ := hok copy rfl
    obtain ⟨target', htarget, h⟩ := Option.bind_eq_some_iff.mp h
    cases hkeeps.now.symm.trans htarget
    have hinserts := insertHook_spec stripCode d.plan spec target (w₂.setEnv s.env)
    generalize insertHook stripCode d.plan spec target (w₂.setEnv s.env) = inserted at h hinserts
    cases hinserts with
    | failed status w hle =>
      cases h
      exact .failed ⟨rfl, rfl, hfreed, hgrows.freeAll.next, hids.ge.trans hle⟩
    | added hook capacity w hspec hkey hold hnew =>
      cases h
      refine .added hadmitted hsaid hspec hkey (hids.ge.trans hold) hnew hgrows ⟨rfl, ?_, ?_⟩
      · rw [hspec]
        exact hkeeps
      · exact fun a ha ↦ hgrows.lt ha

/-- The ways defining a domain can end. -/
inductive Draft.Defines (d : Draft ε) : Except Status Domain → Draft ε → Prop where
  | failed {status : Status} {d' : Draft ε} (hsame : d.Unchanged d') :
    Draft.Defines d (.error status) d'
  | added {domain : Domain} {capacity : Nat} {world : World ε}
    (hdistinct : ∀ other ∈ d.plan.domains, other.spec.stableDomainId ≠ domain.spec.stableDomainId)
    (hold : d.world.nextId ≤ domain.domainId) (hnew : domain.domainId < world.nextId) :
    Draft.Defines d (.ok domain)
      { d with
        plan := { d.plan with domains := d.plan.domains ++ [domain], domainCapacity := capacity }
        world := world }

/-- **Defining a domain**: either nothing has changed, or there is one domain more. -/
theorem Draft.defineDomain_spec (d : Draft ε) (spec : DomainSpec) :
    d.Defines (d.defineDomain spec).1 (d.defineDomain spec).2 := by
  have hrefused : d.Unchanged d := ⟨rfl, rfl, rfl, Nat.le_refl _, Nat.le_refl _⟩
  rw [Draft.defineDomain, HookKit.defineDomain]
  split
  · exact .failed hrefused
  split
  · exact .failed hrefused
  split
  · exact .failed hrefused
  split
  · exact .failed hrefused
  rename_i hdistinct
  split
  · rename_i w halloc
    exact .failed ⟨rfl, rfl, rfl, Nat.le_refl _, (World.alloc_nextId halloc).ge⟩
  rename_i w₁ halloc₁
  split
  · rename_i w halloc
    exact .failed ⟨rfl, rfl, rfl, Nat.le_refl _,
      ((World.alloc_nextId halloc).trans (World.alloc_nextId halloc₁)).ge⟩
  rename_i w₂ halloc₂
  have hids : d.world.nextId ≤ w₂.nextId :=
    ((World.alloc_nextId halloc₂).trans (World.alloc_nextId halloc₁)).ge
  dsimp only [World.freshId]
  split
  · exact .failed ⟨rfl, rfl, rfl, Nat.le_refl _, hids.trans (Nat.le_succ _)⟩
  · refine .added (fun other hother heq ↦ hdistinct ?_) hids (Nat.lt_succ_self _)
    exact List.any_eq_true.mpr ⟨other, hother, decide_eq_true heq⟩

theorem Stands.mono {heap heap' : BlockHeap} {hook : Hook} {stored : StoredTarget}
    (h : Stands heap hook stored) (hsame : ∀ a ∈ stored.owned, heap'.blocks a = heap.blocks a)
    (hnext : heap.next ≤ heap'.next) : Stands heap' hook stored :=
  ⟨h.owner, h.keeps.mono hsame, fun a ha ↦ Nat.lt_of_lt_of_le (h.old a ha) hnext⟩

section

variable {d d' : Draft ε}

/-- Nothing that a plan remembers is lost when others use the memory. -/
theorem Draft.WellFormed.others (hd : d.WellFormed) {heap : BlockHeap} {world : World ε}
    (hsame : ∀ stored ∈ d.stored, ∀ a ∈ stored.owned, heap.blocks a = d.heap.blocks a)
    (hnext : d.heap.next ≤ heap.next) (hids : d.world.nextId ≤ world.nextId) :
    Draft.WellFormed { d with heap := heap, world := world } :=
  { hd with
    stands := by
      have hstands := hd.stands
      rw [List.forall₂_iff_zip] at hstands ⊢
      refine ⟨hstands.1, fun {hook stored} hmem ↦ ?_⟩
      exact (hstands.2 hmem).mono (hsame stored (List.of_mem_zip hmem).2) hnext
    issuedHooks := fun hook hmem ↦ Nat.lt_of_lt_of_le (hd.issuedHooks hook hmem) hids
    issuedDomains := fun domain hmem ↦ Nat.lt_of_lt_of_le (hd.issuedDomains domain hmem) hids }

theorem Draft.WellFormed.unchanged (hd : d.WellFormed) (h : d.Unchanged d') : d'.WellFormed := by
  obtain ⟨plan, stored, heap, world⟩ := d'
  obtain ⟨rfl, rfl, hblocks, hnext, hids⟩ := h
  exact hd.others (fun _ _ a _ ↦ congrFun hblocks a) hnext hids

/-- One more in a list of things that are pairwise distinct. -/
theorem pairwise_concat {α β : Type} {f : α → β} {l : List α} {a : α}
    (hl : l.Pairwise fun x y ↦ f x ≠ f y) (ha : ∀ x ∈ l, f x ≠ f a) :
    (l ++ [a]).Pairwise fun x y ↦ f x ≠ f y := by
  rw [List.pairwise_append]
  refine ⟨hl, List.pairwise_singleton _ a, fun x hx y hy ↦ ?_⟩
  rw [List.mem_singleton.mp hy]
  exact ha x hx

theorem Draft.WellFormed.defines {r : Except Status Domain} (hd : d.WellFormed)
    (h : d.Defines r d') : d'.WellFormed := by
  cases h with
  | failed hsame => exact hd.unchanged hsame
  | @added domain capacity world hdistinct hold hnew =>
    have hids : d.world.nextId ≤ world.nextId := Nat.le_of_lt (Nat.lt_of_le_of_lt hold hnew)
    exact { hd with
      stableDomainIds := pairwise_concat (f := fun domain : Domain ↦ domain.spec.stableDomainId)
        hd.stableDomainIds hdistinct
      domainIds := pairwise_concat (f := Domain.domainId) hd.domainIds fun other hother ↦
        Nat.ne_of_lt (Nat.lt_of_lt_of_le (hd.issuedDomains other hother) hold)
      domains := fun hook hmem name hname ↦
        let ⟨owned, howned, heq⟩ := hd.domains hook hmem name hname
        ⟨owned, List.mem_append_left _ howned, heq⟩
      issuedHooks := fun hook hmem ↦ Nat.lt_of_lt_of_le (hd.issuedHooks hook hmem) hids
      issuedDomains := fun other hmem ↦ by
        rcases List.mem_append.mp hmem with hmem | hmem
        · exact Nat.lt_of_lt_of_le (hd.issuedDomains other hmem) hids
        · rw [List.mem_singleton.mp hmem]
          exact hnew }

/-- New blocks do not disturb the old ones. -/
theorem Draft.WellFormed.grows (hd : d.WellFormed) {heap : BlockHeap} {owned : List BlockAddr}
    (hgrows : Grows d.heap heap owned) : List.Forall₂ (Stands heap) d.plan.hooks d.stored := by
  have hstands := hd.stands
  rw [List.forall₂_iff_zip] at hstands ⊢
  refine ⟨hstands.1, fun {hook stored} hmem ↦ ?_⟩
  have hold := hstands.2 hmem
  exact hold.mono (fun a ha ↦ hgrows.old (hold.old a ha)) hgrows.next

theorem Draft.WellFormed.adds {spec : HookSpec} {raw : RawTarget} {r : Except Status Id}
    (hd : d.WellFormed) (h : d.Adds spec raw r d') : d'.WellFormed := by
  cases h with
  | failed hsame => exact hd.unchanged hsame
  | @added hook capacity stored heap world target hadmitted hsaid hspec hkey hold
      hnew hgrows hstands =>
    have hids : d.world.nextId ≤ world.nextId := Nat.le_of_lt (Nat.lt_of_le_of_lt hold hnew)
    exact {
      stableIds := pairwise_concat (f := fun hook : Hook ↦ hook.spec.stableHookId) hd.stableIds
        fun sibling hsibling ↦ by
          rw [hspec]
          exact hadmitted.distinct sibling hsibling
      targetKeys := pairwise_concat (f := Hook.targetKey) hd.targetKeys hkey
      hookIds := pairwise_concat (f := Hook.hookId) hd.hookIds fun sibling hsibling ↦
        Nat.ne_of_lt (Nat.lt_of_lt_of_le (hd.issuedHooks sibling hsibling) hold)
      stableDomainIds := hd.stableDomainIds
      domainIds := hd.domainIds
      commitAfter := fun earlier other later heq dependency hdependency ↦ by
        rcases List.eq_nil_or_concat later with rfl | ⟨later, last, rfl⟩
        · obtain ⟨rfl, hlast⟩ := List.append_inj' heq rfl
          cases hlast
          rw [hspec] at hdependency
          exact hadmitted.after dependency hdependency
        · rw [List.concat_eq_append, ← List.cons_append, ← List.append_assoc] at heq
          obtain ⟨heq, -⟩ := List.append_inj' heq rfl
          exact hd.commitAfter earlier other later heq dependency hdependency
      domains := fun other hmem name hname ↦ by
        rcases List.mem_append.mp hmem with hmem | hmem
        · exact hd.domains other hmem name hname
        · rw [List.mem_singleton.mp hmem, hspec] at hname
          exact hadmitted.domain name hname
      stands := by
        refine List.rel_append ?_ (.cons hstands .nil)
        exact hd.grows hgrows
      issuedHooks := fun other hmem ↦ by
        rcases List.mem_append.mp hmem with hmem | hmem
        · exact Nat.lt_of_lt_of_le (hd.issuedHooks other hmem) hids
        · rw [List.mem_singleton.mp hmem]
          exact hnew
      issuedDomains := fun domain hmem ↦ Nat.lt_of_lt_of_le (hd.issuedDomains domain hmem) hids }

/-! ## Runs -/

variable {stripCode : Ptr → Ptr}

theorem Draft.WellFormed.step (hd : d.WellFormed) (h : Draft.Step stripCode d d') :
    d'.WellFormed := by
  cases h with
  | defineDomain spec => exact hd.defines (d.defineDomain_spec spec)
  | addHook h => exact hd.adds (Draft.addHook_spec h)
  | others heap world hsame hnext hids => exact hd.others hsame hnext hids

theorem Draft.WellFormed.later (hd : d.WellFormed) (h : Draft.Later stripCode d d') :
    d'.WellFormed := by
  induction h with
  | refl => exact hd
  | tail _ hstep ih => exact ih.step hstep

theorem Draft.Reached.wellFormed (h : d.Reached stripCode) : d.WellFormed := by
  obtain ⟨runtime, plan, heap, w, w', hcreate, hlater⟩ := h
  refine Draft.WellFormed.later ?_ hlater
  rw [createPlan] at hcreate
  split at hcreate
  · cases hcreate
  · cases hcreate
    exact {
      stableIds := .nil
      targetKeys := .nil
      hookIds := .nil
      stableDomainIds := .nil
      domainIds := .nil
      commitAfter := fun earlier hook later heq ↦
        absurd heq.symm (List.append_ne_nil_of_right_ne_nil _ (List.cons_ne_nil _ _))
      domains := fun hook hmem ↦ absurd hmem List.not_mem_nil
      stands := .nil
      issuedHooks := fun hook hmem ↦ absurd hmem List.not_mem_nil
      issuedDomains := fun domain hmem ↦ absurd hmem List.not_mem_nil }

/-- Hooks and their targets stay. -/
theorem Draft.Step.keeps (h : Draft.Step stripCode d d') :
    (∀ hook ∈ d.plan.hooks, hook ∈ d'.plan.hooks) ∧ ∀ stored ∈ d.stored, stored ∈ d'.stored := by
  cases h with
  | defineDomain spec =>
    have hspec := d.defineDomain_spec spec
    generalize d.defineDomain spec = result at hspec ⊢
    obtain ⟨r, d''⟩ := result
    cases hspec with
    | failed hsame =>
      rw [hsame.plan, hsame.stored]
      exact ⟨fun _ ↦ id, fun _ ↦ id⟩
    | added => exact ⟨fun _ ↦ id, fun _ ↦ id⟩
  | addHook h =>
    cases Draft.addHook_spec h with
    | failed hsame =>
      rw [hsame.plan, hsame.stored]
      exact ⟨fun _ ↦ id, fun _ ↦ id⟩
    | added => exact ⟨fun _ ↦ List.mem_append_left _, fun _ ↦ List.mem_append_left _⟩
  | others => exact ⟨fun _ ↦ id, fun _ ↦ id⟩

theorem Draft.Later.keeps (h : Draft.Later stripCode d d') :
    (∀ hook ∈ d.plan.hooks, hook ∈ d'.plan.hooks) ∧ ∀ stored ∈ d.stored, stored ∈ d'.stored := by
  induction h with
  | refl => exact ⟨fun _ ↦ id, fun _ ↦ id⟩
  | tail _ hstep ih =>
    exact ⟨fun hook hmem ↦ hstep.keeps.1 hook (ih.1 hook hmem),
      fun stored hmem ↦ hstep.keeps.2 stored (ih.2 stored hmem)⟩

theorem forall₂_mem_right {α β : Type} {R : α → β → Prop} {l : List α} {l' : List β}
    (h : List.Forall₂ R l l') {b : β} (hb : b ∈ l') : ∃ a ∈ l, R a b := by
  induction h with
  | nil => cases hb
  | cons hhead _ ih =>
    rcases List.mem_cons.mp hb with rfl | hb
    · exact ⟨_, List.mem_cons_self, hhead⟩
    · obtain ⟨a, ha, hR⟩ := ih hb
      exact ⟨a, List.mem_cons_of_mem _ ha, hR⟩

/-- A hook depends on hooks that were added before it. -/
theorem Draft.WellFormed.dependsOn (hd : d.WellFormed) {a b : Id}
    (h : TransGen d.plan.DependsOn a b) : ∃ earlier hook later,
      d.plan.hooks = earlier ++ hook :: later ∧ hook.hookId = a ∧ ∃ h ∈ earlier, h.hookId = b := by
  induction h with
  | single h =>
    obtain ⟨hook, hmem, rfl, hdependency⟩ := h
    obtain ⟨earlier, later, heq⟩ := List.append_of_mem hmem
    exact ⟨earlier, hook, later, heq, rfl, hd.commitAfter earlier hook later heq _ hdependency⟩
  | tail _ h ih =>
    obtain ⟨earlier, hook, later, heq, rfl, h₁, hmem₁, rfl⟩ := ih
    obtain ⟨h₂, hmem₂, hsame, hdependency⟩ := h
    -- the hook in the middle is the one found in front
    have hunique : h₂ = h₁ := by
      refine List.inj_on_of_nodup_map (List.pairwise_map.mpr hd.hookIds) hmem₂ ?_ hsame
      rw [heq]
      exact List.mem_append_left _ hmem₁
    subst hunique
    obtain ⟨before, between, rfl⟩ := List.append_of_mem hmem₁
    obtain ⟨h₃, hmem₃, hid⟩ := hd.commitAfter before h₂ (between ++ hook :: later)
      (by rw [heq, List.append_assoc, List.cons_append]) _ hdependency
    exact ⟨before ++ h₂ :: between, hook, later, heq, rfl, h₃, List.mem_append_left _ hmem₃, hid⟩

/-- What a caller can rely on when its hook has been added: the target of the hook is the one it
passed, and stands in blocks that were nobody's before. -/
def Draft.Stores (stripCode : Ptr → Ptr) (d : Draft ε) (raw : RawTarget) (id : Id) (d' : Draft ε) :
    Prop :=
  ∃ target stored, raw.read d.heap = some target ∧ stored.hook = id ∧
    (∀ a ∈ stored.owned, d.heap.blocks a = none) ∧
    ∀ d'', Draft.Later stripCode d' d'' → stored ∈ d''.stored ∧
      (∃ hook ∈ d''.plan.hooks, hook.hookId = id ∧ hook.spec.target = target) ∧
      ∀ memory : BlockHeap, (∀ a ∈ stored.owned, memory.blocks a = d''.heap.blocks a) →
        stored.target.read memory = some target

theorem Draft.addHook_stores {spec : HookSpec} {raw : RawTarget} {id : Id} (hd : d.WellFormed)
    (h : d.addHook stripCode spec raw = some (.ok id, d')) : d.Stores stripCode raw id d' := by
  have hadds := Draft.addHook_spec h
  have hd' : d'.WellFormed := hd.adds hadds
  cases hadds with
  | @added hook capacity stored heap world target _ hsaid hspec _ _ _ hgrows hstands =>
    refine ⟨target, stored, hsaid, hstands.owner, fun a ha ↦ hgrows.unused ha, fun d'' hlater ↦ ?_⟩
    have hd'' := hd'.later hlater
    have hhook := hlater.keeps.1 hook (List.mem_append_right _ (List.mem_singleton.mpr rfl))
    have hstored := hlater.keeps.2 stored (List.mem_append_right _ (List.mem_singleton.mpr rfl))
    have htarget : hook.spec.target = target := by rw [hspec]
    refine ⟨hstored, ⟨hook, hhook, rfl, htarget⟩, fun memory hsame ↦ ?_⟩
    -- the hook that the target belongs to is still the same
    obtain ⟨owner, howner, hstands''⟩ := forall₂_mem_right hd''.stands hstored
    have hunique : owner = hook :=
      List.inj_on_of_nodup_map (List.pairwise_map.mpr hd''.hookIds) howner hhook
        (hstands''.owner.symm.trans hstands.owner)
    rw [← htarget, ← hunique]
    exact hstands''.keeps memory hsame

/-- **Building a plan.**  In every draft the names, keys and identifiers are distinct, and the
dependencies have no cycle; a hook keeps the target it was given, whatever becomes of the caller's
memory; and a call that fails changes nothing. -/
theorem plan_construction (stripCode : Ptr → Ptr) :
    (∀ d : Draft ε, d.Reached stripCode →
      d.WellFormed ∧ (∀ id, ¬ TransGen d.plan.DependsOn id id) ∧
      ∀ spec raw id d', d.addHook stripCode spec raw = some (.ok id, d') →
        d.Stores stripCode raw id d') ∧
    (∀ (d d' : Draft ε) spec raw status, d.addHook stripCode spec raw = some (.error status, d') →
      d.Unchanged d') ∧
    ∀ (d : Draft ε) spec status, (d.defineDomain spec).1 = .error status →
      d.Unchanged (d.defineDomain spec).2 := by
  refine ⟨fun d hd ↦ ⟨hd.wellFormed, fun id hcycle ↦ ?_, fun spec raw id d' h ↦
    Draft.addHook_stores hd.wellFormed h⟩, fun d d' spec raw status h ↦ ?_,
      fun d spec status h ↦ ?_⟩
  · obtain ⟨earlier, hook, later, heq, hid, other, hmem, hother⟩ := hd.wellFormed.dependsOn hcycle
    have hpair := hd.wellFormed.hookIds
    rw [heq, List.pairwise_append] at hpair
    exact hpair.2.2 other hmem hook List.mem_cons_self (hother.trans hid.symm)
  · cases Draft.addHook_spec h with
    | failed hsame => exact hsame
  · have hspec := d.defineDomain_spec spec
    rw [h] at hspec
    generalize (d.defineDomain spec).2 = d' at hspec ⊢
    cases hspec with
    | failed hsame => exact hsame

end

/-- A caller's memory: the path `x` at `1`, and a byte at `2`. -/
def callerMemory : BlockHeap := (Heap.empty.alloc (.text "x")).alloc (.bytes [0])

/-- A patch of one byte at an absolute address; its base image has been left at some path. -/
def absolutePatch : RawMemoryTarget where
  address := 0x1000
  addressIsImageRelative := false
  baseImage := ⟨.exactPath, 1, [], 0, 0, 0⟩
  replacementBytes := ⟨2, 1⟩
  expectedBytes := ⟨2, 1⟩
  expectedMask := ⟨0, 0⟩
  size := 1
  kind := 0

/-- A draft without hooks. -/
def emptyDraft : Draft Unit where
  plan := ⟨1, 0, .draft, [], 0, [], 0⟩
  stored := []
  heap := callerMemory
  world := ⟨⟨(), fun _ ↦ 0, fun _ ↦ 0, []⟩, 2, [], [], none, []⟩

theorem emptyDraft_reached : emptyDraft.Reached id :=
  ⟨0, _, _, ⟨⟨(), fun _ ↦ 0, fun _ ↦ 0, []⟩, 1, [], [], none, []⟩, _, rfl, .refl⟩

/-- The base image of an absolute patch is not kept: the hook's target is not the caller's. -/
theorem absolutePatch_differs : emptyDraft.Reached id ∧
    ∃ d' stored copy, emptyDraft.addHook id (HookSpec.atAddress "a" 0 0) (.memory absolutePatch) =
        some (.ok 2, d') ∧
      stored ∈ d'.stored ∧ stored.target = .memory copy ∧
      (absolutePatch.baseImage.read emptyDraft.heap).map ImageSelector.path = some (some "x") ∧
      (copy.baseImage.read d'.heap).map ImageSelector.path = some none :=
  ⟨emptyDraft_reached, _, _, _, rfl, List.mem_singleton.mpr rfl, rfl, by decide, by decide⟩

/-- The patch keeps its bytes when the caller's memory is wiped. -/
theorem absolutePatch_stored : ∃ id' d',
    emptyDraft.addHook id (HookSpec.atAddress "a" 0 0) (.memory absolutePatch) =
    some (.ok id', d') ∧
      emptyDraft.Stores id (.memory absolutePatch) id' d' := by
  have hadded : ∃ id' d', emptyDraft.addHook id (HookSpec.atAddress "a" 0 0)
      (.memory absolutePatch) =
    some (.ok id', d') := ⟨_, _, rfl⟩
  obtain ⟨id', d', h⟩ := hadded
  exact ⟨id', d', h, ((plan_construction id).1 emptyDraft emptyDraft_reached).2.2 _ _ _ _ h⟩

end HookKit
