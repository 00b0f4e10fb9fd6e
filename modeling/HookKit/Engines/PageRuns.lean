import HookKit.Engines.Provider
import HookKit.Engines.RelocDetour
import HookKit.Lib.Trace
import HookKit.Plan.System

/-!
# What becomes of the pages

Runs of the relocating engine and of the provider engines, with any number of hooks under way at
once: which pages are obtained from the allocator, which are given back, and when.

* `PageSystem.step` — preparing, committing and releasing a hook.
* `Lifetime.Sound` — where a hook's page is.
* `PageLinear` — what is claimed of a hook's history; `pageLinear_run` — it holds in every run.
-/

set_option autoImplicit false

namespace HookKit

open Arm64

variable {ε : Type}

/-! ## Runs -/

/-- An engine that builds its continuations on pages of the allocator. -/
inductive PageEngine (ε : Type) where
  | reloc (ctx : RelocEngineCtx ε)
  | provider (profile : ProviderProfile) (ctx : ProviderEngineCtx ε)

/-- What such an engine hands back when it has prepared a hook. -/
inductive PagePrepared where
  | reloc (plan : RelocPlan)
  | provider (prepared : ProviderPrepared)

def PageEngine.seams : PageEngine ε → PageSeams ε
  | .reloc ctx => ctx.seams
  | .provider _ ctx => ctx.seams

/-- The preparation callback; the prepared value of a refusal is `none`. -/
def PageEngine.prepare (host : Host ε) (engine : PageEngine ε) (spec : HookSpec) (p : Process ε) :
    Option PagePrepared × Process ε :=
  match engine with
  | .reloc ctx =>
    match relocPrepareOne host ctx spec p with
    | (_, plan, _, p) => (plan.map .reloc, p)
  | .provider profile ctx =>
    match providerPrepare host profile ctx spec p with
    | (_, prepared, _, p) => (prepared.map .provider, p)

/-- The commit callback. -/
def PageEngine.commit (host : Host ε) (engine : PageEngine ε) (spec : HookSpec)
    (requirePredecessorMatch : Bool) (prepared : PagePrepared) (p : Process ε) :
    PagePrepared × Process ε :=
  match engine, prepared with
  | .reloc ctx, .reloc plan =>
    match relocCommitOne host ctx plan p with
    | (_, _, plan, p) => (.reloc plan, p)
  | .provider profile ctx, .provider prepared =>
    match providerCommit host profile ctx spec requirePredecessorMatch prepared p with
    | (_, _, prepared, p) => (.provider prepared, p)
  | _, prepared => (prepared, p)

/-- The release callback. -/
def PageEngine.release (engine : PageEngine ε) (prepared : PagePrepared) (p : Process ε) :
    Process ε :=
  match engine, prepared with
  | .reloc ctx, .reloc plan => relocReleasePrepared ctx plan p
  | .provider _ ctx, .provider prepared => providerRelease ctx prepared p
  | _, _ => p

/-- One hook: its engine, the prepared value until it is released, and what happened to its page. -/
structure Lifetime (ε : Type) where
  engine : PageEngine ε
  prepared : Option PagePrepared
  history : List PageEvent

/-- The process and its hooks, the oldest first. -/
structure PageSystem (ε : Type) where
  machine : Machine ε
  lifetimes : List (Lifetime ε)

/-- What may happen next. -/
inductive PageOp (ε : Type) where
  | prepare (engine : PageEngine ε) (spec : HookSpec)
  | commit (hook : Nat) (spec : HookSpec) (requirePredecessorMatch : Bool)
  | release (hook : Nat)
  /-- Anything the rest of the process does. -/
  | elsewhere (f : Machine ε → Machine ε)

/-- A prepared value is handed to commit as often as the caller likes, and to release once. -/
def PageSystem.step (host : Host ε) (s : PageSystem ε) : PageOp ε → PageSystem ε
  | .prepare engine spec =>
    let (prepared, p) := engine.prepare host spec ⟨s.machine, []⟩
    ⟨p.machine, s.lifetimes ++ [⟨engine, prepared, p.history⟩]⟩
  | .commit hook spec requirePredecessorMatch =>
    match s.lifetimes[hook]? with
    | some ⟨engine, some prepared, history⟩ =>
      let (prepared, p) :=
        engine.commit host spec requirePredecessorMatch prepared ⟨s.machine, history⟩
      ⟨p.machine, s.lifetimes.set hook ⟨engine, some prepared, p.history⟩⟩
    | _ => s
  | .release hook =>
    match s.lifetimes[hook]? with
    | some ⟨engine, some prepared, history⟩ =>
      let p := engine.release prepared ⟨s.machine, history⟩
      ⟨p.machine, s.lifetimes.set hook ⟨engine, none, p.history⟩⟩
    | _ => s
  | .elsewhere f => ⟨f s.machine, s.lifetimes⟩

def PageSystem.run (host : Host ε) (s : PageSystem ε) (ops : List (PageOp ε)) : PageSystem ε :=
  ops.foldl (step host) s

/-- The engine an operation introduces has a seam to give pages back. -/
def PageOp.CanGiveBack : PageOp ε → Prop
  | .prepare engine _ => engine.seams.freePage.isSome
  | _ => True

/-! ## The claim -/

/-- After this the page may be running. -/
def PageEvent.activates : PageEvent → Bool
  | .written _ mutation => mutation ≠ .none
  | .provided _ => true
  | _ => false

/-- A page is given back at most once, never when it may be running, and, once its hook is released
or was never prepared, exactly once unless it may be running. -/
structure PageLinear (l : Lifetime ε) : Prop where
  once : ∀ page, l.history.count (.freed page) ≤ l.history.count (.obtained page) ∧
    l.history.count (.obtained page) ≤ 1
  never : Trace.Always (fun e past ↦ (∃ page, e = .freed page) → ∀ e' ∈ past, e'.activates = false)
    l.history
  returned : l.prepared = none → (∀ e ∈ l.history, e.activates = false) →
    ∀ page, l.history.count (.freed page) = l.history.count (.obtained page)

/-! ## Where the page is -/

/-- The page is the hook's. -/
def Held (page : Addr) (history : List PageEvent) : Prop := history = [.obtained page]

/-- There was no page, or it was given back. -/
def Returned (history : List PageEvent) : Prop :=
  history = [] ∨ (∃ page, history = [.freed page, .obtained page]) ∨
    ∃ page, history = [.freed page, .written page .none, .obtained page]

/-- The page may be running. -/
def Live (history : List PageEvent) : Prop :=
  ∃ page calls, history = calls ++ [.obtained page] ∧ calls ≠ [] ∧
    ∀ e ∈ calls, e.activates = true ∧ ∀ page', e ≠ .freed page' ∧ e ≠ .obtained page'

/-- What the prepared value of the relocating engine says about the page. -/
def RelocPlan.Pages (plan : RelocPlan) (history : List PageEvent) : Prop :=
  (plan.activated = false ∧ plan.trampoline ≠ 0 ∧ Held plan.trampoline history) ∨
    (plan.activated = false ∧ plan.captured = false ∧ plan.trampoline = 0 ∧ Returned history) ∨
    (plan.activated = true ∧ Live history)

/-- What the prepared value of a provider engine says about the page. -/
def ProviderPrepared.Pages (prepared : ProviderPrepared) (history : List PageEvent) : Prop :=
  (prepared.hybrid = false ∧ history = []) ∨
    (prepared.hybrid = true ∧ prepared.providerCalled = false ∧
      prepared.continuation.trampoline ≠ 0 ∧ Held prepared.continuation.trampoline history) ∨
    (prepared.hybrid = true ∧ prepared.providerCalled = true ∧ Live history)

/-- What a prepared value says about the page. -/
def PagePrepared.Pages (history : List PageEvent) : PagePrepared → Prop
  | .reloc plan => plan.Pages history
  | .provider prepared => prepared.Pages history

/-- Engine and prepared value belong together. -/
def PageEngine.Owns : PageEngine ε → PagePrepared → Prop
  | .reloc _, .reloc _ => True
  | .provider .., .provider _ => True
  | _, _ => False

/-- The prepared value knows where the page is; without one there is nothing left to give back. -/
structure Lifetime.Sound (l : Lifetime ε) : Prop where
  canGiveBack : l.engine.seams.freePage.isSome
  open_ : ∀ prepared, l.prepared = some prepared → l.engine.Owns prepared ∧ prepared.Pages l.history
  closed : l.prepared = none → Returned l.history ∨ Live l.history

theorem Live.activates {history : List PageEvent} (h : Live history) :
    ∃ e ∈ history, e.activates = true := by
  obtain ⟨page, calls, rfl, hne, hcalls⟩ := h
  obtain ⟨e, rest, rfl⟩ := List.exists_cons_of_ne_nil hne
  exact ⟨e, List.mem_cons_self, (hcalls e List.mem_cons_self).1⟩

/-- A page that may be running was never given back. -/
theorem Live.count {history : List PageEvent} (h : Live history) (page : Addr) :
    history.count (.freed page) = 0 ∧ history.count (.obtained page) ≤ 1 := by
  obtain ⟨page', calls, rfl, -, hcalls⟩ := h
  have hfreed : calls.count (.freed page) = 0 :=
    List.count_eq_zero.mpr fun hmem ↦ ((hcalls _ hmem).2 page).1 rfl
  have hobtained : calls.count (.obtained page) = 0 :=
    List.count_eq_zero.mpr fun hmem ↦ ((hcalls _ hmem).2 page).2 rfl
  rw [List.count_append, List.count_append, hfreed, hobtained, Nat.zero_add, Nat.zero_add]
  exact ⟨List.count_eq_zero.mpr (by simp), List.count_le_length⟩

theorem Live.never {history : List PageEvent} (h : Live history) :
    Trace.Always (fun e past ↦ (∃ page, e = .freed page) → ∀ e' ∈ past, e'.activates = false)
      history := by
  obtain ⟨page, calls, rfl, -, hcalls⟩ := h
  induction calls with
  | nil => exact ⟨(fun ⟨_, h⟩ ↦ by cases h), trivial⟩
  | cons e calls ih =>
    refine ⟨?_, ih fun e' he' ↦ hcalls e' (List.mem_cons_of_mem e he')⟩
    rintro ⟨page', rfl⟩
    exact absurd rfl ((hcalls _ List.mem_cons_self).2 page').1

theorem Returned.count {history : List PageEvent} (h : Returned history) (page : Addr) :
    history.count (.freed page) = history.count (.obtained page) ∧
      history.count (.obtained page) ≤ 1 := by
  rcases h with rfl | ⟨page', rfl⟩ | ⟨page', rfl⟩
  · exact ⟨rfl, Nat.zero_le 1⟩
  · by_cases heq : page' = page
    · subst heq
      simp
    · simp [heq]
  · by_cases heq : page' = page
    · subst heq
      simp
    · simp [heq]

theorem Returned.never {history : List PageEvent} (h : Returned history) :
    Trace.Always (fun e past ↦ (∃ page, e = .freed page) → ∀ e' ∈ past, e'.activates = false)
      history := by
  rcases h with rfl | ⟨page', rfl⟩ | ⟨page', rfl⟩
  · trivial
  · simp [Trace.Always, PageEvent.activates]
  · simp [Trace.Always, PageEvent.activates]

theorem Held.linear {page : Addr} {history : List PageEvent} (h : Held page history) :
    (∀ page', history.count (.freed page') ≤ history.count (.obtained page') ∧
      history.count (.obtained page') ≤ 1) ∧
    Trace.Always (fun e past ↦ (∃ page, e = .freed page) → ∀ e' ∈ past, e'.activates = false)
      history := by
  rw [Held] at h
  subst h
  refine ⟨fun page' ↦ ⟨?_, List.count_le_length⟩, ?_⟩
  · rw [List.count_eq_zero.mpr (by simp)]
    exact Nat.zero_le _
  · exact ⟨(fun ⟨_, h⟩ ↦ by cases h), trivial⟩

theorem Lifetime.Sound.linear {l : Lifetime ε} (h : l.Sound) : PageLinear l := by
  have hclosed (hreturned : Returned l.history) : PageLinear l :=
    ⟨fun page ↦ ⟨(hreturned.count page).1.le, (hreturned.count page).2⟩, hreturned.never,
      fun _ _ page ↦ (hreturned.count page).1⟩
  have hlive (hlive : Live l.history) : PageLinear l := by
    refine ⟨fun page ↦ ⟨?_, (hlive.count page).2⟩, hlive.never, fun _ hnone ↦ ?_⟩
    · rw [(hlive.count page).1]
      exact Nat.zero_le _
    · obtain ⟨e, he, hactivates⟩ := hlive.activates
      rw [hnone e he] at hactivates
      cases hactivates
  cases hprepared : l.prepared with
  | none => exact (h.closed hprepared).elim hclosed hlive
  | some prepared =>
    have hheld {page : Addr} (hheld : Held page l.history) : PageLinear l :=
      ⟨hheld.linear.1, hheld.linear.2, fun hnone ↦ by rw [hprepared] at hnone; cases hnone⟩
    have hpages := (h.open_ prepared hprepared).2
    cases prepared with
    | reloc plan =>
      rcases hpages with ⟨-, -, h⟩ | ⟨-, -, -, h⟩ | ⟨-, h⟩
      · exact hheld h
      · exact hclosed h
      · exact hlive h
    | provider prepared =>
      rcases hpages with ⟨-, h⟩ | ⟨-, -, -, h⟩ | ⟨-, -, h⟩
      · exact hclosed (.inl h)
      · exact hheld h
      · exact hlive h

/-! ## What the callbacks do to the page -/

@[simp] theorem Process.run_history {α : Type} (p : Process ε) (f : Machine ε → α × Machine ε) :
    (p.run f).2.history = p.history := rfl

theorem giveBack_history {seams : PageSeams ε} (hfree : seams.freePage.isSome) (page : Addr)
    (size : Nat) (p : Process ε) :
    (seams.giveBack page size p).history = .freed page :: p.history := by
  obtain ⟨free, hsome⟩ := Option.isSome_iff_exists.mp hfree
  rw [PageSeams.giveBack, hsome]
  rfl

/-- A preparation that fails has given its page back, if it got one. -/
def PrepareFailed (p p' : Process ε) : Prop :=
  p'.history = p.history ∨ ∃ page, p'.history = .freed page :: .obtained page :: p.history

/-- One that succeeds has the page, and nothing has happened to it. -/
def PrepareHeld (plan : RelocPlan) (p p' : Process ε) : Prop :=
  plan.activated = false ∧ plan.trampoline ≠ 0 ∧
    p'.history = .obtained plan.trampoline :: p.history

theorem relocBuild_pages {target replacement page : Addr} {overwriteSize : Nat}
    {expected : Option (List Byte)} {sealPage : Addr → Nat → Machine ε → Bool × Machine ε}
    {seams : PageSeams ε} {mapping : ArtifactMapping} (hfree : seams.freePage.isSome)
    (hpage : page ≠ 0) (p : Process ε) :
    let r := relocBuild target replacement overwriteSize expected sealPage seams page mapping p
    (r.1 = .ok ∧ r.2.1.activated = false ∧ r.2.1.trampoline = page ∧ r.2.2.history = p.history) ∨
      (r.1 ≠ .ok ∧ r.2.2.history = .freed page :: p.history) := by
  have fails {status : RelocStatus} {plan : RelocPlan} {p₀ : Process ε} (hstatus : status ≠ .ok)
      (hhistory : p₀.history = p.history) :
      let r := relocReleaseAndFail seams page status plan p₀
      (r.1 = .ok ∧ r.2.1.activated = false ∧ r.2.1.trampoline = page ∧ r.2.2.history = p.history) ∨
        (r.1 ≠ .ok ∧ r.2.2.history = .freed page :: p.history) := by
    refine .inr ⟨hstatus, ?_⟩
    rw [relocReleaseAndFail, if_neg hpage, giveBack_history hfree, hhistory]
  rw [relocBuild]
  dsimp only
  generalize (if overwriteSize = 0 then emitBranch page replacement else []) = thunk
  generalize (if overwriteSize = 0 then
    emitBranch target (choosePatch target replacement page overwriteSize).2.1 else []) = patch
  iterate 5
    split
    · exact fails (by decide) rfl
  split
  · exact fails (by decide) rfl
  · split
    · exact fails (by decide) rfl
    · split
      · rename_i p₁ hsealed
        have hhistory := congrArg (fun r ↦ r.2.history) hsealed
        exact fails (by decide) hhistory.symm
      · rename_i p₁ hsealed
        have hhistory := congrArg (fun r ↦ r.2.history) hsealed
        split
        · exact fails (by decide) hhistory.symm
        · exact .inl ⟨rfl, rfl, rfl, hhistory.symm⟩

theorem relocPrepareWith_pages {target replacement : Addr} {overwriteSize : Nat}
    {expected : Option (List Byte)} {seams : PageSeams ε} (hfree : seams.freePage.isSome)
    {p p' : Process ε} {status : RelocStatus} {plan : RelocPlan}
    (h : relocPrepareWith target replacement overwriteSize expected seams p = (status, plan, p')) :
    (status = .ok ∧ PrepareHeld plan p p') ∨ (status ≠ .ok ∧ PrepareFailed p p') := by
  have refuses {status' : RelocStatus} (hstatus : status' ≠ .ok)
      (h : (status', RelocPlan.zero, p) = (status, plan, p')) :
      (status = .ok ∧ PrepareHeld plan p p') ∨ (status ≠ .ok ∧ PrepareFailed p p') := by
    cases h
    exact .inr ⟨hstatus, .inl rfl⟩
  rw [relocPrepareWith] at h
  split at h
  · iterate 3
      split at h
      · exact refuses (by decide) h
    rename_i alloc sealPage halloc hseal _ _ _
    have hhistory : (PageSeams.allocPage alloc target p).2.history =
        if (PageSeams.allocPage alloc target p).1.1 = 0 then p.history
        else .obtained (PageSeams.allocPage alloc target p).1.1 :: p.history := by
      rw [PageSeams.allocPage]
      dsimp only
      split <;> rfl
    generalize PageSeams.allocPage alloc target p = allocated at h hhistory
    obtain ⟨⟨page, mapping⟩, p₁⟩ := allocated
    dsimp only at h hhistory
    split at h
    · cases h
      refine .inr ⟨by decide, ?_⟩
      split at hhistory
      · rename_i hzero
        rw [if_pos hzero]
        exact .inl hhistory
      · rename_i hpage
        rw [if_neg hpage]
        exact .inr ⟨page, by rw [giveBack_history hfree, hhistory]⟩
    · rename_i husable
      obtain ⟨hpage, -⟩ := pageUsable_spec (by simpa using husable)
      rw [if_neg hpage] at hhistory
      have hbuild := @relocBuild_pages _ target replacement page overwriteSize expected
        sealPage seams mapping hfree hpage p₁
      rw [h] at hbuild
      rcases hbuild with ⟨hok, hactivated, htrampoline, hafter⟩ | ⟨hfailed, hafter⟩
      · dsimp only at hok hactivated htrampoline hafter
        refine .inl ⟨hok, hactivated, by rwa [htrampoline], ?_⟩
        rw [hafter, hhistory, htrampoline]
      · exact .inr ⟨hfailed, .inr ⟨page, by rw [hafter, hhistory]⟩⟩
  · exact refuses (by decide) h

theorem relocPrepareOne_pages {host : Host ε} {ctx : RelocEngineCtx ε} {spec : HookSpec}
    (hfree : ctx.seams.freePage.isSome) {p p' : Process ε} (hp : p.history = [])
    {result : PrepareResult} {prepared : Option RelocPlan} {diag : PrepareDiag}
    (h : relocPrepareOne host ctx spec p = (result, prepared, diag, p')) :
    (∃ plan, prepared = some plan ∧ plan.Pages p'.history) ∨
      (prepared = none ∧ Returned p'.history) := by
  have unchanged {message : PrepareDiag} {p₀ : Process ε} (hhistory : p₀.history = [])
      (h : (PrepareResult.failed, none, message, p₀) = (result, prepared, diag, p')) :
      (∃ plan, prepared = some plan ∧ plan.Pages p'.history) ∨
        (prepared = none ∧ Returned p'.history) := by
    cases h
    exact .inr ⟨rfl, .inl hhistory⟩
  rw [relocPrepareOne] at h
  split at h
  · dsimp only at h
    split at h
    · exact unchanged hp h
    · split at h
      · rename_i p₁ hmalloc
        exact unchanged (by rw [← congrArg (fun r ↦ r.2.history) hmalloc]; exact hp) h
      · rename_i p₁ hmalloc
        have hp₁ : p₁.history = [] := by rw [← congrArg (fun r ↦ r.2.history) hmalloc]; exact hp
        split at h
        · rename_i plan p₂ hprepare
          obtain ⟨-, hactivated, htrampoline, hhistory⟩ :=
            (relocPrepareWith_pages hfree hprepare).resolve_right fun hfailed ↦ hfailed.1 rfl
          rw [hp₁] at hhistory
          split at h
          · cases h
            refine .inr ⟨rfl, .inr (.inl ⟨plan.trampoline, ?_⟩)⟩
            rw [giveBack_history hfree, hhistory]
          · cases h
            exact .inl ⟨_, rfl, .inl ⟨hactivated, htrampoline, hhistory⟩⟩
        · rename_i status plan p₂ hnok hprepare
          cases h
          rcases relocPrepareWith_pages hfree hprepare with ⟨rfl, -⟩ | ⟨-, hfailed⟩
          · exact absurd rfl hnok
          · rcases hfailed with hsame | ⟨page, hback⟩
            · exact .inr ⟨rfl, .inl (hsame.trans hp₁)⟩
            · exact .inr ⟨rfl, .inr (.inl ⟨page, by rw [hback, hp₁]⟩)⟩
  · exact unchanged hp h

/-- A refused write gives the page back; any other leaves it running. -/
theorem relocCommit_pages {write : Option (RelocWrite ε)} {seams : PageSeams ε}
    (hfree : seams.freePage.isSome) {plan plan' : RelocPlan}
    {p p' : Process ε} {mutation : Mutation}
    (hpages : plan.Pages p.history) (h : relocCommit write seams plan p = (mutation, plan', p')) :
    plan'.Pages p'.history := by
  have unchanged {m : Mutation} (h : (m, plan, p) = (mutation, plan', p')) :
      plan'.Pages p'.history := by
    cases h
    exact hpages
  unfold relocCommit at h
  split at h
  · exact unchanged h
  · rename_i hactivated
    split at h
    · exact unchanged h
    · rename_i write
      split at h
      · exact unchanged h
      · rename_i hcaptured
        rcases hpages with ⟨-, htrampoline, hheld⟩ | ⟨-, hnot, -⟩ | ⟨hactive, -⟩
        · split at h
          rename_i mutation' p₁ hwrite
          have hp₁ : p₁.history = [.obtained plan.trampoline] ∧ mutation' = .none ∨
              p₁.history = [.written plan.trampoline mutation', .obtained plan.trampoline] := by
            split at hwrite
            · cases hwrite
              exact .inr (by rw [← hheld]; rfl)
            · cases hwrite
              exact .inl ⟨hheld, rfl⟩
          split at h
          · rename_i hnone
            rw [if_pos ⟨hfree, htrampoline⟩] at h
            cases h
            refine .inr (.inl ⟨by simpa using hactivated, rfl, rfl, ?_⟩)
            rw [giveBack_history hfree]
            rcases hp₁ with ⟨hp₁, -⟩ | hp₁
            · exact .inr (.inl ⟨plan.trampoline, by rw [hp₁]⟩)
            · exact .inr (.inr ⟨plan.trampoline, by rw [hp₁, hnone]⟩)
          · rename_i hmutated
            cases h
            refine .inr (.inr ⟨rfl, plan.trampoline, [.written plan.trampoline mutation],
              (hp₁.resolve_left fun h ↦ hmutated h.2), by simp, ?_⟩)
            simp [PageEvent.activates, hmutated]
        · exact absurd (.inl (by simp [hnot])) hcaptured
        · exact absurd hactive hactivated

theorem relocReleasePrepared_pages {ctx : RelocEngineCtx ε} (hfree : ctx.seams.freePage.isSome)
    {plan : RelocPlan} {p : Process ε} (hpages : plan.Pages p.history) :
    Returned (relocReleasePrepared ctx plan p).history ∨
      Live (relocReleasePrepared ctx plan p).history := by
  rw [relocReleasePrepared]
  rcases hpages with ⟨hactivated, htrampoline, hheld⟩ | ⟨-, -, hzero, hreturned⟩
    | ⟨hactivated, hlive⟩
  · rw [if_pos ⟨by simp [hactivated], htrampoline⟩, giveBack_history hfree, hheld]
    exact .inl (.inr (.inl ⟨plan.trampoline, rfl⟩))
  · rw [if_neg fun h ↦ h.2 hzero]
    exact .inl hreturned
  · rw [if_neg fun h ↦ by simp [hactivated] at h]
    exact .inr hlive

/-! ### The provider engines -/

theorem readEntry_history {ctx : ProviderEngineCtx ε} {target : Addr} {size : Nat}
    {p p' : Process ε} {bytes : Option (List Byte)}
    (h : ctx.readEntry target size p = (bytes, p')) : p'.history = p.history := by
  rw [ProviderEngineCtx.readEntry] at h
  split at h
  · cases h
    rfl
  · split at h
    · cases h
      rfl
    · cases h
      rfl

theorem providerActivate_pages {ctx : ProviderEngineCtx ε} (hfree : ctx.seams.freePage.isSome)
    {prepared : ProviderPrepared} {p p' : Process ε} (hpages : prepared.Pages p.history)
    (hcalled : prepared.providerCalled = false)
    {result : PrepareResult} {prepared' : Option ProviderPrepared} {diag : PrepareDiag}
    (h : providerActivate ctx prepared p = (result, prepared', diag, p')) :
    (∃ prepared, prepared' = some prepared ∧ prepared.Pages p'.history) ∨
      (prepared' = none ∧ Returned p'.history) := by
  rw [providerActivate] at h
  split at h
  rename_i ready diag' p₁ hready
  have hp₁ : p₁.history = p.history := by
    split at hready
    · cases hready
      rfl
    · exact (congrArg (fun r ↦ r.2.history) hready).symm
  split at h
  · cases h
    refine .inr ⟨rfl, ?_⟩
    rcases hpages with ⟨hhybrid, hnil⟩ | ⟨hhybrid, -, -, hheld⟩ | ⟨-, hcalled', -⟩
    · rw [if_neg (by simp [hhybrid]), hp₁]
      exact .inl hnil
    · rw [if_pos hhybrid, giveBack_history hfree, hp₁, hheld]
      exact .inr (.inl ⟨_, rfl⟩)
    · rw [hcalled] at hcalled'
      cases hcalled'
  · cases h
    exact .inl ⟨prepared, rfl, hp₁ ▸ hpages⟩

theorem providerBuild_pages {ctx : ProviderEngineCtx ε} (hfree : ctx.seams.freePage.isSome)
    {target : AddressTarget} {prepared : ProviderPrepared} {p p' : Process ε} (hp : p.history = [])
    (hcalled : prepared.providerCalled = false)
    {result : PrepareResult} {prepared' : Option ProviderPrepared} {diag : PrepareDiag}
    (h : providerBuild ctx target prepared p = (result, prepared', diag, p')) :
    (∃ prepared, prepared' = some prepared ∧ prepared.Pages p'.history) ∨
      (prepared' = none ∧ Returned p'.history) := by
  rw [providerBuild] at h
  split at h
  · rename_i hhybrid
    split at h
    · rename_i plan p₁ hprepare
      obtain ⟨-, -, htrampoline, hhistory⟩ :=
        (relocPrepareWith_pages hfree hprepare).resolve_right fun hfailed ↦ hfailed.1 rfl
      rw [hp] at hhistory
      have hpages : ({ prepared with continuation := plan } : ProviderPrepared).Pages p₁.history :=
        .inr (.inl ⟨hhybrid, hcalled, htrampoline, hhistory⟩)
      exact providerActivate_pages hfree hpages hcalled h
    · rename_i status plan p₁ hnok hprepare
      cases h
      rcases relocPrepareWith_pages hfree hprepare with ⟨rfl, -⟩ | ⟨-, hfailed⟩
      · exact absurd rfl hnok
      · rcases hfailed with hsame | ⟨page, hback⟩
        · exact .inr ⟨rfl, .inl (hsame.trans hp)⟩
        · exact .inr ⟨rfl, .inr (.inl ⟨page, by rw [hback, hp]⟩)⟩
  · rename_i hhybrid
    exact providerActivate_pages hfree (.inl ⟨by simpa using hhybrid, hp⟩) hcalled h

theorem providerPrepare_pages {host : Host ε} {profile : ProviderProfile}
    {ctx : ProviderEngineCtx ε}
    {spec : HookSpec} (hfree : ctx.seams.freePage.isSome) {p p' : Process ε} (hp : p.history = [])
    {result : PrepareResult} {prepared : Option ProviderPrepared} {diag : PrepareDiag}
    (h : providerPrepare host profile ctx spec p = (result, prepared, diag, p')) :
    (∃ prepared', prepared = some prepared' ∧ prepared'.Pages p'.history) ∨
      (prepared = none ∧ Returned p'.history) := by
  have refuses {diag' : PrepareDiag} {p₀ : Process ε} (hhistory : p₀.history = [])
      (h : (PrepareResult.failed, none, diag', p₀) = (result, prepared, diag, p')) :
      (∃ prepared', prepared = some prepared' ∧ prepared'.Pages p'.history) ∨
        (prepared = none ∧ Returned p'.history) := by
    cases h
    exact .inr ⟨rfl, .inl hhistory⟩
  rw [providerPrepare] at h
  split at h
  · dsimp -iota only at h
    generalize (if providerNeedsHybrid profile spec = true then ctx.maxOverwriteSize
      else profile.inspectionSize) = inspectionSize at h
    iterate 4
      split at h
      · exact refuses hp h
    split at h
    rename_i accepted diag' p₁ hvalidate
    have hp₁ : p₁.history = [] := by
      split at hvalidate
      · cases hvalidate
        exact hp
      · rw [← congrArg (fun r ↦ r.2.history) hvalidate]
        exact hp
    iterate 2
      split at h
      · exact refuses hp₁ h
    split at h
    · rename_i p₂ hmalloc
      exact refuses (by rw [← congrArg (fun r ↦ r.2.history) hmalloc]; exact hp₁) h
    · rename_i p₂ hmalloc
      have hp₂ : p₂.history = [] := by rw [← congrArg (fun r ↦ r.2.history) hmalloc]; exact hp₁
      split at h
      · rename_i p₃ hread
        exact refuses ((readEntry_history hread).trans hp₂) h
      · rename_i inspected p₃ hread
        exact providerBuild_pages hfree ((readEntry_history hread).trans hp₂) rfl h
  · exact refuses hp h

theorem Live.provided {history : List PageEvent} (h : Live history) (page : Addr) :
    Live (.provided page :: history) := by
  obtain ⟨page', calls, rfl, -, hcalls⟩ := h
  refine ⟨page', .provided page :: calls, rfl, by simp, ?_⟩
  intro e he
  rcases List.mem_cons.mp he with rfl | he
  · exact ⟨rfl, fun page' ↦ ⟨by simp, by simp⟩⟩
  · exact hcalls e he

/-- Calling the provider leaves the page running, whatever the provider answers. -/
theorem providerCommit_pages {host : Host ε} {profile : ProviderProfile} {ctx : ProviderEngineCtx ε}
    {spec : HookSpec} {requirePredecessorMatch : Bool} {prepared prepared' : ProviderPrepared}
    {p p' : Process ε} (hpages : prepared.Pages p.history) {mutation : Mutation}
    {original : Option Addr}
    (h : providerCommit host profile ctx spec requirePredecessorMatch prepared p =
      (mutation, original, prepared', p')) :
    prepared'.Pages p'.history := by
  have unchanged {p₀ : Process ε} (hhistory : p₀.history = p.history)
      (h : (Mutation.none, (none : Option Addr), prepared, p₀) =
        (mutation, original, prepared', p')) :
      prepared'.Pages p'.history := by
    cases h
    exact hhistory ▸ hpages
  rw [providerCommit] at h
  split at h
  · split at h
    · exact unchanged rfl h
    · split at h
      rename_i current p₁ hread
      have hp₁ := readEntry_history hread
      split at h
      · exact unchanged hp₁ h
      · -- the provider is called; its answer decides the mutation, not the page
        have called : ({ prepared with providerCalled := true } : ProviderPrepared).Pages
            (if prepared.hybrid then p₁.log (.provided prepared.continuation.trampoline)
              else p₁).history := by
          rcases hpages with ⟨hhybrid, hnil⟩ | ⟨hhybrid, -, -, hheld⟩ | ⟨hhybrid, -, hlive⟩
          · exact .inl ⟨hhybrid, by rw [if_neg (by simp [hhybrid]), hp₁, hnil]⟩
          · refine .inr (.inr ⟨hhybrid, rfl, ?_⟩)
            rw [if_pos hhybrid]
            refine ⟨prepared.continuation.trampoline, [.provided prepared.continuation.trampoline],
              ?_, by simp, by simp [PageEvent.activates]⟩
            rw [← hheld, ← hp₁]
            rfl
          · refine .inr (.inr ⟨hhybrid, rfl, ?_⟩)
            rw [if_pos hhybrid]
            exact (hp₁ ▸ hlive).provided _
        dsimp -iota only at h
        split at h
        rename_i status native p₂ hhook
        have hp₂ := congrArg (fun r ↦ r.2.history) hhook
        rw [Process.run_history] at hp₂
        rw [hp₂] at called
        split at h
        · cases h
          exact called
        · cases h
          exact called
  · exact unchanged rfl h

theorem providerRelease_pages {ctx : ProviderEngineCtx ε} (hfree : ctx.seams.freePage.isSome)
    {prepared : ProviderPrepared} {p : Process ε} (hpages : prepared.Pages p.history) :
    Returned (providerRelease ctx prepared p).history ∨
      Live (providerRelease ctx prepared p).history := by
  rw [providerRelease]
  rcases hpages with ⟨hhybrid, hnil⟩ | ⟨hhybrid, hcalled, htrampoline, hheld⟩
    | ⟨hhybrid, hcalled, hlive⟩
  · rw [if_neg fun h ↦ by simp [hhybrid] at h]
    exact .inl (.inl hnil)
  · rw [if_pos ⟨hhybrid, by simp [hcalled], htrampoline⟩, giveBack_history hfree, hheld]
    exact .inl (.inr (.inl ⟨_, rfl⟩))
  · rw [if_neg fun h ↦ by simp [hcalled] at h]
    exact .inr hlive

/-! ## The run -/

theorem Lifetime.sound_prepare {host : Host ε} {engine : PageEngine ε} {spec : HookSpec}
    (hfree : engine.seams.freePage.isSome) (machine : Machine ε) :
    Lifetime.Sound ⟨engine, (engine.prepare host spec ⟨machine, []⟩).1,
      (engine.prepare host spec ⟨machine, []⟩).2.history⟩ := by
  cases engine with
  | reloc ctx =>
    rcases hprepare : relocPrepareOne host ctx spec ⟨machine, []⟩ with ⟨result, prepared, diag, p'⟩
    have hresult : (PageEngine.reloc ctx).prepare host spec ⟨machine, []⟩ =
        (prepared.map .reloc, p') := by rw [PageEngine.prepare]; simp only [hprepare]
    rw [hresult]
    rcases relocPrepareOne_pages hfree rfl hprepare with ⟨plan, rfl, hpages⟩ | ⟨rfl, hreturned⟩
    · exact ⟨hfree, fun | _, rfl => ⟨trivial, hpages⟩, fun h ↦ by cases h⟩
    · exact ⟨hfree, (fun _ h ↦ by cases h), fun _ ↦ .inl hreturned⟩
  | provider profile ctx =>
    rcases hprepare : providerPrepare host profile ctx spec ⟨machine, []⟩ with
      ⟨result, prepared, diag, p'⟩
    have hresult : (PageEngine.provider profile ctx).prepare host spec ⟨machine, []⟩ =
        (prepared.map .provider, p') := by rw [PageEngine.prepare]; simp only [hprepare]
    rw [hresult]
    rcases providerPrepare_pages hfree rfl hprepare with ⟨plan, rfl, hpages⟩ | ⟨rfl, hreturned⟩
    · exact ⟨hfree, fun | _, rfl => ⟨trivial, hpages⟩, fun h ↦ by cases h⟩
    · exact ⟨hfree, (fun _ h ↦ by cases h), fun _ ↦ .inl hreturned⟩

theorem Lifetime.Sound.commit {host : Host ε} {engine : PageEngine ε} {prepared : PagePrepared}
    {history : List PageEvent} (h : Lifetime.Sound ⟨engine, some prepared, history⟩)
    (spec : HookSpec)
    (requirePredecessorMatch : Bool) (machine : Machine ε) :
    let r := engine.commit host spec requirePredecessorMatch prepared ⟨machine, history⟩
    Lifetime.Sound ⟨engine, some r.1, r.2.history⟩ := by
  obtain ⟨howns, hpages⟩ := h.open_ prepared rfl
  refine ⟨h.canGiveBack, fun _ h ↦ ?_, fun h ↦ by cases h⟩
  cases h
  cases engine with
  | reloc ctx =>
    cases prepared with
    | provider => exact howns.elim
    | reloc plan =>
      rcases hcommit : relocCommit ctx.write ctx.seams plan ⟨machine, history⟩ with
        ⟨mutation, plan', p'⟩
      have hpages : plan.Pages history := hpages
      have := relocCommit_pages h.canGiveBack hpages hcommit
      simp only [PageEngine.commit, relocCommitOne, hcommit]
      exact ⟨trivial, this⟩
  | provider profile ctx =>
    cases prepared with
    | reloc => exact howns.elim
    | provider prepared =>
      rcases hcommit : providerCommit host profile ctx spec requirePredecessorMatch prepared
        ⟨machine, history⟩ with ⟨mutation, original, prepared', p'⟩
      have hpages : prepared.Pages history := hpages
      have := providerCommit_pages hpages hcommit
      simp only [PageEngine.commit, hcommit]
      exact ⟨trivial, this⟩

theorem Lifetime.Sound.release {engine : PageEngine ε} {prepared : PagePrepared}
    {history : List PageEvent} (h : Lifetime.Sound ⟨engine, some prepared, history⟩)
    (machine : Machine ε) :
    Lifetime.Sound ⟨engine, none, (engine.release prepared ⟨machine, history⟩).history⟩ := by
  obtain ⟨howns, hpages⟩ := h.open_ prepared rfl
  refine ⟨h.canGiveBack, (fun _ h ↦ by cases h), fun _ ↦ ?_⟩
  cases engine with
  | reloc ctx =>
    cases prepared with
    | provider => exact howns.elim
    | reloc plan => exact relocReleasePrepared_pages h.canGiveBack hpages
  | provider profile ctx =>
    cases prepared with
    | reloc => exact howns.elim
    | provider prepared => exact providerRelease_pages h.canGiveBack hpages

/-- One operation keeps every hook sound. -/
theorem PageSystem.step_sound {host : Host ε} {s : PageSystem ε} {op : PageOp ε}
    (hop : op.CanGiveBack) (hs : ∀ l ∈ s.lifetimes, l.Sound) :
    ∀ l ∈ (s.step host op).lifetimes, l.Sound := by
  cases op with
  | prepare engine spec =>
    intro l hl
    rcases List.mem_append.mp hl with hl | hl
    · exact hs l hl
    · rw [List.mem_singleton.mp hl]
      exact Lifetime.sound_prepare hop s.machine
  | commit hook spec requirePredecessorMatch =>
    rw [PageSystem.step]
    split
    · rename_i engine prepared history hget
      intro l hl
      rcases List.mem_or_eq_of_mem_set hl with hl | rfl
      · exact hs l hl
      · exact (hs _ (List.mem_of_getElem? hget)).commit spec requirePredecessorMatch s.machine
    · exact hs
  | release hook =>
    rw [PageSystem.step]
    split
    · rename_i engine prepared history hget
      intro l hl
      rcases List.mem_or_eq_of_mem_set hl with hl | rfl
      · exact hs l hl
      · exact (hs _ (List.mem_of_getElem? hget)).release s.machine
    · exact hs
  | elsewhere f => exact hs

theorem PageSystem.run_sound {host : Host ε} {ops : List (PageOp ε)}
    (hops : ∀ op ∈ ops, op.CanGiveBack) {s : PageSystem ε} (hs : ∀ l ∈ s.lifetimes, l.Sound) :
    ∀ l ∈ (s.run host ops).lifetimes, l.Sound := by
  induction ops generalizing s with
  | nil => exact hs
  | cons op ops ih =>
    exact ih (fun op' hop' ↦ hops op' (List.mem_cons_of_mem op hop'))
      (step_sound (hops op List.mem_cons_self) hs)

/-- Pages are used linearly in every run. -/
theorem pageLinear_run (host : Host ε) (machine : Machine ε) (ops : List (PageOp ε))
    (hops : ∀ op ∈ ops, op.CanGiveBack) :
    ∀ l ∈ (PageSystem.run host ⟨machine, []⟩ ops).lifetimes, PageLinear l :=
  fun l hl ↦ (PageSystem.run_sound hops (fun _ h ↦ by cases h) l hl).linear

/-- The relocating engine on one page, with a write that reports `mutation`. -/
def relocOn (page : Addr) (mutation : Mutation) : PageEngine Unit := .reloc {
  seams := fixedPage page
  write := some fun a bytes m ↦ (mutation, if mutation = .none then m else m.store a bytes)
  allowNonAtomicEntryPatch := false }

/-- Two hooks at once: the write of one is refused, the write of the other is not. -/
theorem pageLinear_run_two :
    let hook : HookSpec := .atAddress "a" 0x1000 0x2000
    let ops := [.prepare (relocOn 0x4000 .none) hook, .prepare (relocOn 0x8000 .complete) hook,
      .commit 1 hook false, .commit 0 hook false, .release 0, .release 1]
    ∀ l ∈ (PageSystem.run plainHost ⟨nopMachine, []⟩ ops).lifetimes, PageLinear l :=
  pageLinear_run plainHost nopMachine _ (by
    intro op hop
    simp only [List.mem_cons, List.not_mem_nil, or_false] at hop
    rcases hop with rfl | rfl | rfl | rfl | rfl | rfl <;> trivial)

/-- The page of the refused write went back, the other one stayed. -/
example :
    let hook : HookSpec := .atAddress "a" 0x1000 0x2000
    (PageSystem.run plainHost ⟨nopMachine, []⟩
      [.prepare (relocOn 0x4000 .none) hook, .prepare (relocOn 0x8000 .complete) hook,
        .commit 0 hook false, .release 0]).lifetimes.map Lifetime.history =
      [[.freed 0x4000, .written 0x4000 .none, .obtained 0x4000], [.obtained 0x8000]] := by
  decide +kernel

end HookKit
