import HookKit.Lib.Footprint
import HookKit.Plan.SystemSteps

/-!
# Engines that keep to their targets

The callbacks of an engine may do anything to the state it works on.  An engine is local when
nothing but its commit callbacks and its compensation changes that state, these change it only in
the region of the target they are handed, and a commit that says that it has not mutated anything
has not.

* `Engine.Local` — such an engine.
* `preparePlan_shows`, `analyzePlan_shows`, … — what is not a commit changes nothing.
* `commitOneHook_accounted`, `commitGroup_accounted` — the two ways to commit change what the hooks
  they settle stand for.
-/

set_option autoImplicit false

namespace HookKit

open Footprint

variable {ε α β : Type}

/-! ## Locality -/

/-- A callback that changes nothing of what is looked at. -/
def Blind {γ : Type} (view : ε → α → β) (f : Env ε → γ × Env ε) : Prop :=
  ∀ env, view (f env).2.host = view env.host

/-- A grouped callback takes no mutation back. -/
def GroupAnswer.KeepsMutations (answer : GroupAnswer) (ops : List Operation) : Prop :=
  ∀ i op, ops[i]? = some op → op.mutation ≠ .none → (answer.writes i).mutation ≠ .none

/-- An engine that keeps to the regions of its targets, and is honest about having mutated
nothing. -/
structure Engine.Local (view : ε → α → β) (region : Target → Set α) (engine : Engine ε) :
    Prop where
  discover : ∀ f ∈ engine.discover, Blind view f
  analyzeOperation : ∀ f ∈ engine.analyzeOperation, ∀ spec, Blind view (f spec)
  prepareOne : ∀ f ∈ engine.prepareOne, ∀ spec, Blind view (f spec)
  prepareOneCtx : ∀ f ∈ engine.prepareOneCtx, ∀ spec, Blind view (f spec)
  prepareOneCtxStatus : ∀ f ∈ engine.prepareOneCtxStatus, ∀ spec, Blind view (f spec)
  prepareGroupCtx : ∀ f ∈ engine.prepareGroupCtx, ∀ specs, Blind view (f specs)
  inspectContinuation : ∀ f ∈ engine.inspectContinuation, ∀ spec prepared,
    Blind view (f spec prepared)
  releasePrepared : ∀ f ∈ engine.releasePrepared, ∀ prepared env,
    view (f prepared env).host = view env.host
  verifyOne : ∀ f ∈ engine.verifyOne, ∀ spec, Blind view (f spec)
  verifyOneCtx : ∀ f ∈ engine.verifyOneCtx, ∀ spec prepared, Blind view (f spec prepared)
  commitOne : ∀ f ∈ engine.commitOne, ∀ spec sink env a,
    view (f spec sink env).2.host a ≠ view env.host a →
      a ∈ region spec.target ∧ (f spec sink env).1.mutation ≠ .none
  commitOneCtx : ∀ f ∈ engine.commitOneCtx, ∀ spec prepared sink env a,
    view (f spec prepared sink env).2.host a ≠ view env.host a →
      a ∈ region spec.target ∧ (f spec prepared sink env).1.mutation ≠ .none
  revalidateGroupCtx : ∀ f ∈ engine.revalidateGroupCtx, ∀ ops, Blind view (f ops)
  /-- A member that a refused commit has mutated need not be named. -/
  commitGroupCtx : ∀ f ∈ engine.commitGroupCtx, ∀ ops env a,
    view (f ops env).2.host a ≠ view env.host a → ∃ (i : Nat) (op : Operation),
      ops[i]? = some op ∧ a ∈ region op.spec.target ∧
      ((f ops env).1.accepted = true → ((f ops env).1.writes i).mutation ≠ .none)
  verifyGroupCtx : ∀ f ∈ engine.verifyGroupCtx, ∀ ops, Blind view (f ops) ∧
    ∀ env, (f ops env).1.KeepsMutations ops
  compensateGroupCtx : ∀ f ∈ engine.compensateGroupCtx, ∀ ops env,
    (f ops env).1.KeepsMutations ops ∧ ∀ a, view (f ops env).2.host a ≠ view env.host a →
      ∃ (i : Nat) (op : Operation), ops[i]? = some op ∧ a ∈ region op.spec.target ∧
        op.mutation ≠ .none

theorem Engine.Local.absent (view : ε → α → β) (region : Target → Set α) :
    (Engine.absent : Engine ε).Local view region := by
  constructor <;> simp [Engine.absent]

/-! ## Allocating changes nothing that is looked at -/

@[simp] theorem Env.allocAll_host (env : Env ε) (n : Nat) :
    (env.allocAll n).2.host = env.host := by
  induction n generalizing env with
  | zero => rfl
  | succ n ih => rw [Env.allocAll]; simp [ih]

theorem growArray_host (count capacity : Nat) (env : Env ε) :
    (growArray count capacity env).2.host = env.host := by
  rw [growArray]
  split
  · exact env.alloc_host
  · rfl

theorem copyString_host (s : Option String) (env : Env ε) :
    (copyString s env).2.host = env.host := by
  rw [copyString]
  split
  · exact env.alloc_host
  · rfl

theorem copyBytes_host (bytes : BytesView) (env : Env ε) :
    (copyBytes bytes env).2.host = env.host := by
  have halloc := env.alloc_host
  rw [copyBytes]
  split
  · rfl
  · split <;> rename_i heq <;> rw [heq] at halloc <;> exact halloc

theorem copyChildren_host {copy : ImageSelector → Env ε → Except Status ImageSelector × Env ε}
    (hcopy : ∀ child env, (copy child env).2.host = env.host)
    (children : List (Option ImageSelector)) (env : Env ε) :
    (copyChildren copy children env).2.host = env.host := by
  induction children generalizing env with
  | nil => rfl
  | cons child rest ih =>
    cases child with
    | none => rfl
    | some child =>
      have hchild := hcopy child env
      rw [copyChildren]
      split <;> rename_i heq <;> rw [heq] at hchild
      · exact hchild
      · rename_i env'
        have hrest := ih env'
        split <;> rename_i heq' <;> rw [heq'] at hrest <;> exact hrest.trans hchild

theorem copySelectorOwned_host (levels : Nat) (selector : ImageSelector) (env : Env ε) :
    (copySelectorOwned levels selector env).2.host = env.host := by
  induction levels generalizing selector env with
  | zero => rfl
  | succ levels ih =>
    have halloc := env.alloc_host
    rw [copySelectorOwned]
    split <;> rename_i hself <;> rw [hself] at halloc
    · exact halloc
    rename_i env₁
    have hpath := copyString_host selector.path env₁
    split <;> rename_i heq <;> rw [heq] at hpath
    · exact hpath.trans halloc
    rename_i env₂
    have hstart : env₂.host = env.host := hpath.trans halloc
    split
    · split
      · exact hstart
      · exact hstart
      · rename_i child rest _
        have harrays := env₂.allocAll_host 2
        split <;> rename_i heq <;> rw [heq] at harrays
        · exact harrays.trans hstart
        rename_i env₃
        have hset := copyChildren_host ih (child :: rest) env₃
        split <;> rename_i heq <;> rw [heq] at hset <;> exact (hset.trans harrays).trans hstart
    · exact hstart

theorem copySelector_host (selector : ImageSelector) (env : Env ε) :
    (copySelector selector env).2.host = env.host :=
  copySelectorOwned_host 33 selector env

theorem copyTarget_host (target : Target) (env : Env ε) :
    (copyTarget target env).2.host = env.host := by
  cases target with
  | symbol t =>
    have hname := copyString_host t.name env
    rw [copyTarget]
    split <;> rename_i heq <;> rw [heq] at hname
    · exact hname
    rename_i env₁
    have hdefining := copySelector_host t.definingImage env₁
    split <;> rename_i heq <;> rw [heq] at hdefining
    · exact hdefining.trans hname
    rename_i env₂
    have hscope := copySelector_host t.callerImageScope env₂
    split <;> rename_i heq <;> rw [heq] at hscope <;> exact (hscope.trans hdefining).trans hname
  | address t =>
    have himage := copySelector_host t.expectedImage env
    rw [copyTarget]
    split <;> rename_i heq <;> rw [heq] at himage
    · exact himage
    rename_i env₁
    have hbytes := copyBytes_host t.expectedInitialBytes env₁
    split <;> rename_i heq <;> rw [heq] at hbytes <;> exact hbytes.trans himage
  | objc t =>
    have hclass := copyString_host t.className env
    rw [copyTarget]
    split <;> rename_i heq <;> rw [heq] at hclass
    · exact hclass
    rename_i env₁
    have hselector := copyString_host t.selectorName env₁
    split <;> rename_i heq <;> rw [heq] at hselector <;> exact hselector.trans hclass
  | memory t =>
    have hbase : (if t.addressIsImageRelative then copySelector t.baseImage env
        else (.ok ImageSelector.zero, env)).2.host = env.host := by
      split
      · exact copySelector_host t.baseImage env
      · rfl
    rw [copyTarget]
    split <;> rename_i heq <;> rw [heq] at hbase
    · exact hbase
    rename_i env₁
    have hreplacement := copyBytes_host t.replacementBytes env₁
    split <;> rename_i heq <;> rw [heq] at hreplacement
    · exact hreplacement.trans hbase
    rename_i env₂
    have hexpected := copyBytes_host t.expectedBytes env₂
    split <;> rename_i heq <;> rw [heq] at hexpected
    · exact (hexpected.trans hreplacement).trans hbase
    rename_i env₃
    have hmask := copyBytes_host t.expectedMask env₃
    split <;> rename_i heq <;> rw [heq] at hmask <;>
      exact ((hmask.trans hexpected).trans hreplacement).trans hbase
  | swiftVtable => rfl

theorem targetKeyCopy_host (stripCode : Ptr → Ptr) (target : Target) (env : Env ε) :
    (targetKeyCopy stripCode target env).2.host = env.host := by
  have halloc := env.alloc_host
  rw [targetKeyCopy]
  split <;> rename_i heq <;> rw [heq] at halloc <;> exact halloc

theorem ownedCopy_host (a : Artifact) (env : Env ε) : (ownedCopy a env).2.host = env.host := by
  rw [ownedCopy]
  split <;> simp

namespace Ledger

theorem ensureCapacity_host (l : Ledger) (needed : Nat) (env : Env ε) :
    (l.ensureCapacity needed env).2.2.host = env.host := by
  have halloc := env.alloc_host
  rw [ensureCapacity]
  split
  · rfl
  · split <;> rename_i heq <;> rw [heq] at halloc <;> exact halloc

theorem append_host (l : Ledger) (a : Artifact) (env : Env ε) :
    (l.append a env).2.2.host = env.host := by
  have hcopy := ownedCopy_host a env
  rw [append]
  split <;> rename_i heq <;> rw [heq] at hcopy
  · exact hcopy
  · rename_i env'
    have hgrow := ensureCapacity_host l (l.count + 1) env'
    split <;> rename_i heq' <;> rw [heq'] at hgrow <;> exact hgrow.trans hcopy

theorem copyAll_host (items : List Artifact) (env : Env ε) :
    (copyAll items env).2.host = env.host := by
  induction items generalizing env with
  | nil => rfl
  | cons a rest ih =>
    have hcopy := ownedCopy_host a env
    rw [copyAll]
    split <;> rename_i heq <;> rw [heq] at hcopy
    · exact hcopy
    · exact (ih _).trans hcopy

theorem appendLedger_host (l source : Ledger) (env : Env ε) :
    (l.appendLedger source env).2.2.host = env.host := by
  rw [appendLedger]
  split
  · rfl
  · split
    · rfl
    · have hgrow := ensureCapacity_host l (l.count + source.count) env
      split <;> rename_i heq <;> rw [heq] at hgrow
      · exact hgrow
      · rename_i env'
        have hcopy := copyAll_host source.items env'
        split <;> rename_i heq' <;> rw [heq'] at hcopy <;> exact hcopy.trans hgrow

end Ledger

theorem Owners.allocRecord_host (engineId : Option String) (env : Env ε) :
    (Owners.allocRecord engineId env).2.host = env.host := by
  have hfirst := env.alloc_host
  rw [allocRecord]
  split <;> rename_i heq <;> rw [heq] at hfirst
  · exact hfirst
  rename_i env₁
  have hsecond := env₁.alloc_host
  split <;> rename_i heq <;> rw [heq] at hsecond
  · exact hsecond.trans hfirst
  rename_i env₂
  split
  · exact (env₂.alloc_host.trans hsecond).trans hfirst
  · exact hsecond.trans hfirst

theorem Owners.record_host (owners : Owners) (key : Key) (engineId : Option String)
    (replacement predecessor : Ptr) (env : Env ε) :
    (owners.record key engineId replacement predecessor env).2.2.host = env.host := by
  rw [record]
  split
  · rfl
  · have halloc := allocRecord_host engineId env
    split <;> rename_i heq <;> rw [heq] at halloc <;> exact halloc

theorem Runtime.appendArtifacts_host (runtime : Runtime) (source : Ledger) (env : Env ε) :
    (runtime.appendArtifacts source env).2.host = env.host := by
  rw [appendArtifacts]
  split
  · rfl
  · exact Ledger.appendLedger_host _ _ _

/-! ## The core -/

/-- What is looked at, in a process. -/
def World.shows (w : World ε) (view : ε → α → β) : α → β := view w.env.host

variable (view : ε → α → β)

namespace World

@[simp] theorem log_shows (w : World ε) (e : Event) : (w.log e).shows view = w.shows view := rfl

@[simp] theorem freshId_shows (w : World ε) : w.freshId.2.shows view = w.shows view := rfl

@[simp] theorem setEnv_shows (w : World ε) (env : Env ε) :
    (w.setEnv env).shows view = view env.host := rfl

@[simp] theorem alloc_shows (w : World ε) : w.alloc.2.shows view = w.shows view :=
  congrArg view w.env.alloc_host

theorem createInstalled_shows (w : World ε) (installedId : Id) (original : Ptr)
    (result : HookResult) :
    (w.createInstalled installedId original result).2.shows view = w.shows view := by
  have halloc := w.alloc_shows view
  rw [createInstalled]
  split <;> rename_i heq <;> rw [heq] at halloc <;> exact halloc

theorem recordOwner_shows (w : World ε) (key : Key) (engineId : Option String)
    (replacement predecessor : Ptr) :
    (w.recordOwner key engineId replacement predecessor).2.shows view = w.shows view :=
  congrArg view (Owners.record_host w.owners key engineId replacement predecessor w.env)

theorem appendProcessLedger_shows (w : World ε) (source : Ledger) :
    (w.appendProcessLedger source).shows view = w.shows view := by
  rw [appendProcessLedger]
  split
  · exact congrArg view (Ledger.appendLedger_host _ source w.env)
  · have halloc := w.env.alloc_host
    split <;> rename_i heq <;> rw [heq] at halloc
    · exact congrArg view halloc
    · exact congrArg view ((Ledger.appendLedger_host _ source _).trans halloc)

end World

theorem Sink.record_shows (sink : Sink) (a : Artifact) (w : World ε) :
    (sink.record a w).2.shows view = w.shows view :=
  congrArg view (Ledger.append_host _ _ _)

theorem Sink.write_shows (sink : Sink) (writes : SinkWrites) (w : World ε) :
    (sink.write writes w).2.shows view = w.shows view := by
  rw [Sink.write]
  dsimp only
  generalize writes.records = records
  induction records generalizing sink w with
  | nil => rfl
  | cons a rest ih => exact (ih _ _).trans (sink.record_shows view a w)

theorem createReport_shows (count : Nat) (w : World ε) :
    (createReport count w).2.shows view = w.shows view := by
  have hfirst := w.alloc_shows view
  rw [createReport]
  split <;> rename_i heq <;> rw [heq] at hfirst
  · exact hfirst
  rename_i w₁
  have hsecond := w₁.freshId.2.alloc_shows view
  dsimp only
  split <;> rename_i heq <;> rw [heq] at hsecond
  · exact hsecond.trans hfirst
  rename_i w₂
  split
  · exact (w₂.alloc_shows view).trans (hsecond.trans hfirst)
  · exact hsecond.trans hfirst

theorem publishArtifacts_shows (runtime : Runtime) (source : Ledger) (w : World ε) :
    (publishArtifacts runtime source w).2.shows view = w.shows view :=
  (World.appendProcessLedger_shows view _ source).trans
    (congrArg view (runtime.appendArtifacts_host source w.env))

/-! ## Drafting -/

theorem createPlan_shows (runtime : RuntimeId) (w : World ε) :
    (createPlan runtime w).2.shows view = w.shows view := by
  have halloc := w.alloc_shows view
  rw [createPlan]
  split <;> rename_i heq <;> rw [heq] at halloc <;> exact halloc

theorem defineDomain_shows (plan : Plan) (spec : DomainSpec) (w : World ε) :
    (defineDomain plan spec w).2.2.shows view = w.shows view := by
  rw [defineDomain]
  split
  · rfl
  split
  · rfl
  split
  · rfl
  split
  · rfl
  have hfirst := w.alloc_shows view
  split <;> rename_i heq <;> rw [heq] at hfirst
  · exact hfirst
  rename_i w₁
  have hsecond := w₁.alloc_shows view
  split <;> rename_i heq <;> rw [heq] at hsecond
  · exact hsecond.trans hfirst
  rename_i w₂
  have hgrow := growArray_host plan.domains.length plan.domainCapacity w₂.freshId.2.env
  dsimp only
  split <;> rename_i heq <;> rw [heq] at hgrow <;>
    exact ((congrArg view hgrow).trans hsecond).trans hfirst

theorem addHook_shows (stripCode : Ptr → Ptr) (plan : Plan) (spec : HookSpec) (w : World ε) :
    (addHook stripCode plan spec w).2.2.shows view = w.shows view := by
  rw [addHook]
  split
  · rfl
  have hfirst := w.alloc_shows view
  split <;> rename_i heq <;> rw [heq] at hfirst
  · exact hfirst
  rename_i w₁
  have hsecond := w₁.alloc_shows view
  split <;> rename_i heq <;> rw [heq] at hsecond
  · exact hsecond.trans hfirst
  rename_i w₂
  have hstart : w₂.shows view = w.shows view := hsecond.trans hfirst
  have htarget := copyTarget_host spec.target w₂.env
  split <;> rename_i heq <;> rw [heq] at htarget
  · exact (congrArg view htarget).trans hstart
  rename_i target env₁
  have hkey := targetKeyCopy_host stripCode target env₁
  split <;> rename_i heq <;> rw [heq] at hkey
  · exact (congrArg view (hkey.trans htarget)).trans hstart
  rename_i env₂
  have hcopied : view env₂.host = w.shows view :=
    (congrArg view (hkey.trans htarget)).trans hstart
  split
  · exact hcopied
  have hafter : (if spec.after ≠ [] then env₂.alloc else (true, env₂)).2.host = env₂.host := by
    split
    · exact env₂.alloc_host
    · rfl
  split <;> rename_i heq <;> rw [heq] at hafter
  · exact (congrArg view hafter).trans hcopied
  rename_i env₃
  have hgrow := growArray_host plan.hooks.length plan.hookCapacity (w₂.setEnv env₃).freshId.2.env
  dsimp only
  split <;> rename_i heq <;> rw [heq] at hgrow <;>
    exact (congrArg view (hgrow.trans hafter)).trans hcopied

/-! ## Analysis and preparation -/

section Engines

variable {view} {region : Target → Set α} {engines : EngineRef → Engine ε}
  (hlocal : ∀ ref, (engines ref).Local view region)

include hlocal

/-- The engine of a hook is one of the engines. -/
theorem Hook.engine_local (hook : Hook) : (hook.engine engines).Local view region := by
  rw [Hook.engine]
  split
  · exact .absent view region
  · exact hlocal _

theorem refineRoute_shows (ref : EngineRef) (hook : Hook) (reach : Mask) (env : Env ε) :
    view (refineRoute (engines ref) hook reach env).2.host = view env.host := by
  rw [refineRoute]
  split
  · rfl
  · rename_i analyze hanalyze
    have hblind := (hlocal ref).analyzeOperation analyze hanalyze hook.spec env
    split <;> rename_i heq <;> rw [heq] at hblind
    · exact hblind
    · dsimp only
      split <;> exact hblind

theorem analyzeCandidate_shows (runtime : Runtime) (runtimeId : RuntimeId) (hook : Hook)
    (registration : Registration) (env : Env ε) :
    view (analyzeCandidate engines runtime runtimeId hook registration env).2.host =
      view env.host := by
  rw [analyzeCandidate]
  dsimp only
  split
  · have hroute := refineRoute_shows hlocal registration.engine hook
      (effectiveReach (env.imageCount runtimeId) hook (engines registration.engine).describe) env
    split
    · rfl
    dsimp only
    split <;> rename_i heq <;> rw [heq] at hroute
    · exact hroute
    · split <;> exact hroute
  · rename_i discover hdiscover
    have hblind := (hlocal registration.engine).discover discover hdiscover env
    have hroute := refineRoute_shows hlocal registration.engine hook
      (effectiveReach (env.imageCount runtimeId) hook (engines registration.engine).describe)
      (discover env).2
    split
    · exact hblind
    split <;> rename_i heq <;> rw [heq] at hroute
    · exact hroute.trans hblind
    · split <;> exact hroute.trans hblind

theorem findRoute_shows (runtime : Runtime) (runtimeId : RuntimeId) (hook : Hook)
    (registered : List Registration) (best : Option Route) (env : Env ε) :
    view (findRoute engines runtime runtimeId hook registered best env).2.host = view env.host := by
  induction registered generalizing best env with
  | nil => rfl
  | cons registration rest ih =>
    have hfirst := analyzeCandidate_shows hlocal runtime runtimeId hook registration env
    rw [findRoute]
    split <;> rename_i heq <;> rw [heq] at hfirst <;> exact (ih _ _).trans hfirst

theorem analyzeOne_shows (runtime : Runtime) (runtimeId : RuntimeId) (planId : Id) (hook : Hook)
    (env : Env ε) :
    view (analyzeOne engines runtime runtimeId planId hook env).2.host = view env.host := by
  have hroute := findRoute_shows hlocal runtime runtimeId hook runtime.engines none env
  rw [analyzeOne]
  dsimp only
  split <;> rename_i heq <;> rw [heq] at hroute <;> exact hroute

theorem analyzeHooks_shows (runtime : Runtime) (runtimeId : RuntimeId) (planId : Id)
    (hooks : List Hook) (env : Env ε) :
    view (analyzeHooks engines runtime runtimeId planId hooks env).2.host = view env.host := by
  induction hooks generalizing env with
  | nil => rfl
  | cons hook rest ih =>
    exact (ih _).trans (analyzeOne_shows hlocal runtime runtimeId planId hook env)

theorem analyzePlan_shows (runtime : Runtime) (plan : Plan) (w : World ε) :
    (analyzePlan engines runtime plan w).2.2.shows view = w.shows view := by
  rw [analyzePlan]
  split
  · rfl
  have hfirst : (if plan.hooks.length > 0 then w.alloc else (true, w)).2.shows view =
      w.shows view := by
    split
    · exact w.alloc_shows view
    · rfl
  split <;> rename_i heq <;> rw [heq] at hfirst
  · exact hfirst
  rename_i w₁
  have hhooks := analyzeHooks_shows hlocal runtime plan.runtime plan.planId plan.hooks w₁.env
  generalize analyzeHooks engines runtime plan.runtime plan.planId plan.hooks w₁.env = analyzed
    at hhooks ⊢
  obtain ⟨hooks, env⟩ := analyzed
  have hreport := createReport_shows view hooks.length (w₁.setEnv env)
  dsimp only at hhooks ⊢
  split <;> rename_i heq <;> rw [heq] at hreport <;> exact (hreport.trans hhooks).trans hfirst

theorem releasePrepared_shows (hook : Hook) (w : World ε) :
    (releasePrepared engines hook w).2.shows view = w.shows view := by
  rw [releasePrepared]
  split
  · rfl
  · dsimp only
    split
    · rfl
    · rename_i release hrelease
      exact (hook.engine_local hlocal).releasePrepared release hrelease _ _

theorem inspectPreparedContinuation_shows (hook : Hook) (diag : PrepareDiag) (w : World ε) :
    (inspectPreparedContinuation engines hook diag w).2.2.2.shows view = w.shows view := by
  rw [inspectPreparedContinuation]
  split
  · rfl
  · rename_i inspect hinspect
    have hcall : (w.call (inspect hook.spec hook.preparedState)).2.shows view = w.shows view :=
      (hook.engine_local hlocal).inspectContinuation inspect hinspect _ _ w.env
    dsimp only
    split
    · exact hcall
    · split
      · exact (releasePrepared_shows hlocal hook _).trans hcall
      · exact hcall
    · exact (releasePrepared_shows hlocal hook _).trans hcall

theorem prepareAnswer_shows {hook : Hook} {env env' : Env ε} {answer : PrepareAnswer}
    (h : (hook.engine engines).prepareAnswer hook env = some (answer, env')) :
    view env'.host = view env.host := by
  have hengine := hook.engine_local hlocal
  rw [Engine.prepareAnswer] at h
  split at h
  · rename_i prepare hprepare
    cases h
    exact hengine.prepareOneCtxStatus prepare hprepare _ _
  · split at h
    · rename_i prepare hprepare
      have hblind := hengine.prepareOneCtx prepare hprepare hook.spec env
      split at h <;> rename_i heq <;> rw [heq] at hblind <;> cases h <;> exact hblind
    · split at h
      · rename_i prepare hprepare
        cases h
        exact hengine.prepareOne prepare hprepare _ _
      · cases h

theorem dispatchPrepare_shows (path : Path) (runtime : RuntimeId) (hook : Hook) (w : World ε) :
    (dispatchPrepare engines path runtime hook w).2.2.2.shows view = w.shows view := by
  rw [dispatchPrepare]
  split
  · rfl
  · rename_i answer env hanswer
    have henv := prepareAnswer_shows hlocal hanswer
    dsimp only
    split
    · exact (inspectPreparedContinuation_shows hlocal _ _ _).trans henv
    · exact henv

theorem validatePrepareEffects_shows (result : PrepareResult) (hook : Hook) (diag : PrepareDiag)
    (w : World ε) :
    (validatePrepareEffects engines result hook diag w).2.2.2.shows view = w.shows view := by
  rw [validatePrepareEffects]
  split
  · rfl
  · dsimp only
    split
    · exact releasePrepared_shows hlocal hook w
    · rfl

theorem releaseDomainMembers_shows (domain : Id) (hooks : List Hook) (w : World ε) :
    (releaseDomainMembers engines domain hooks w).2.2.shows view = w.shows view := by
  induction hooks generalizing w with
  | nil => rfl
  | cons hook rest ih =>
    rw [releaseDomainMembers]
    split
    · exact (ih _).trans (releasePrepared_shows hlocal hook w)
    · exact ih w

theorem failDomain_shows (domains : List Domain) (gateOk : Id → Bool) (hook : Hook)
    (st : PrepareState ε) :
    (failDomain engines domains gateOk hook st).world.shows view = st.world.shows view := by
  rw [failDomain]
  split
  · rfl
  · split
    · exact releaseDomainMembers_shows hlocal _ _ _
    · rfl

theorem recordPrepareAttempt_shows (domains : List Domain) (gateOk : Id → Bool) (index : Nat)
    (result : PrepareResult) (hook : Hook) (diag : PrepareDiag) (out : HookResult)
    (st : PrepareState ε) :
    (recordPrepareAttempt engines domains gateOk index result hook diag out st).world.shows view =
      st.world.shows view := by
  have hvalid := validatePrepareEffects_shows hlocal result hook diag st.world
  rw [recordPrepareAttempt]
  generalize validatePrepareEffects engines result hook diag st.world = validated at hvalid ⊢
  obtain ⟨result, hook, diag, w⟩ := validated
  dsimp only at hvalid ⊢
  have hreleased : (if result ≠ .ok then releasePrepared engines hook w
      else (hook, w)).2.shows view = st.world.shows view := by
    split
    · exact (releasePrepared_shows hlocal hook w).trans hvalid
    · exact hvalid
  split
  · exact (failDomain_shows hlocal _ _ _ _).trans hreleased
  · exact hreleased

theorem releaseAll_shows (hooks : List Hook) (w : World ε) :
    (releaseAll engines hooks w).2.shows view = w.shows view := by
  induction hooks generalizing w with
  | nil => rfl
  | cons hook rest ih => exact (ih _).trans (releasePrepared_shows hlocal hook w)

omit hlocal in
theorem logPrepareCalls_shows (runtime : RuntimeId) (hooks : List Hook) (w : World ε) :
    (logPrepareCalls runtime hooks w).shows view = w.shows view := by
  induction hooks generalizing w with
  | nil => rfl
  | cons hook rest ih => exact ih _

theorem callPrepareGroup_shows (members : List Hook) (w : World ε) :
    (callPrepareGroup engines members w).2.shows view = w.shows view := by
  rw [callPrepareGroup]
  split
  · rfl
  · rename_i prepare hprepare
    obtain ⟨engine, hengine, hfound⟩ := Option.bind_eq_some_iff.mp hprepare
    obtain ⟨hook, -, rfl⟩ := Option.map_eq_some_iff.mp hengine
    exact (hook.engine_local hlocal).prepareGroupCtx prepare hfound _ w.env

theorem recordPrepareGroup_shows (answer : PrepareGroupAnswer) (index : Nat)
    (outs : List HookResult) (offset : Nat) (st : PrepareState ε) :
    (recordPrepareGroup engines answer index outs offset st).world.shows view =
      st.world.shows view := by
  induction outs generalizing offset st with
  | nil => rfl
  | cons out outs ih =>
    rw [recordPrepareGroup]
    split
    · rfl
    dsimp only
    rw [ih, recordPrepareAttempt_shows hlocal]
    dsimp only
    generalize (if answer.accepted = true then answer.writes offset
      else { answer.writes offset with result := .failed, prepared := 0 }) = written
    split
    · exact inspectPreparedContinuation_shows hlocal _ _ _
    · rfl

theorem prepareGroup_shows (runtime : RuntimeId) (count : Nat) (st : PrepareState ε) :
    (prepareGroup engines runtime count st).state.world.shows view = st.world.shows view := by
  have halloc := st.world.alloc_shows view
  rw [prepareGroup]
  split <;> rename_i heq <;> rw [heq] at halloc
  · exact halloc
  · dsimp only [Loop.Flow.state_next]
    rw [recordPrepareGroup_shows hlocal]
    dsimp only
    rw [callPrepareGroup_shows hlocal, logPrepareCalls_shows, releaseAll_shows hlocal]
    exact halloc

theorem prepareStale_shows (domains : List Domain) (gateOk : Id → Bool) (hook : Hook)
    (st : PrepareState ε) :
    (prepareStale engines domains gateOk hook st).world.shows view = st.world.shows view :=
  failDomain_shows hlocal _ _ _ _

theorem prepareSingle_shows (runtime : RuntimeId) (domains : List Domain) (gateOk : Id → Bool)
    (hook : Hook) (st : PrepareState ε) :
    (prepareSingle engines runtime domains gateOk hook st).world.shows view =
      st.world.shows view := by
  rw [prepareSingle]
  dsimp only
  rw [recordPrepareAttempt_shows hlocal]
  dsimp only
  rw [dispatchPrepare_shows hlocal, releasePrepared_shows hlocal]

/-- One pass of the loop in `hk_plan_prepare`. -/
theorem prepareIter_shows (runtime : RuntimeId) (domains : List Domain) (gateOk : Id → Bool)
    (st : PrepareState ε) :
    (prepareIter engines runtime domains gateOk st).state.world.shows view =
      st.world.shows view := by
  rw [prepareIter]
  split
  · rfl
  split
  · rfl
  dsimp only
  split
  · exact prepareGroup_shows hlocal _ _ _
  split
  · exact prepareStale_shows hlocal _ _ _ _
  · show World.shows (if _ then _ else _ : PrepareState ε).world view = _
    split
    · rfl
    · exact prepareSingle_shows hlocal _ _ _ _ _

omit hlocal in
theorem allocPrepare_shows (view : ε → α → β) (plan : Plan) (w : World ε) :
    (allocPrepare plan w).2.shows view = w.shows view := by
  have hfirst : (if plan.hooks.length > 0 then w.alloc else (true, w)).2.shows view =
      w.shows view := by
    split
    · exact w.alloc_shows view
    · rfl
  rw [allocPrepare]
  split <;> rename_i heq <;> rw [heq] at hfirst
  · exact hfirst
  rename_i w₁
  split
  · have hsecond := w₁.alloc_shows view
    split <;> rename_i heq <;> rw [heq] at hsecond
    · exact hsecond.trans hfirst
    · exact (World.alloc_shows view _).trans (hsecond.trans hfirst)
  · exact hfirst

theorem preparePlan_shows (plan : Plan) (w : World ε) :
    (preparePlan engines plan w).2.2.shows view = w.shows view := by
  rw [preparePlan]
  split
  · rfl
  have halloc := allocPrepare_shows view plan w
  split <;> rename_i heq <;> rw [heq] at halloc
  · exact halloc
  rename_i w₁
  have hloop : (prepareLoop engines plan w₁).state.world.shows view = w₁.shows view :=
    Loop.run_invariant (fun st : PrepareState ε ↦ st.world.shows view = w₁.shows view)
      (fun st _ h ↦ (prepareIter_shows hlocal _ _ _ st).trans h) _ rfl
  split <;> rename_i heq <;> rw [heq] at hloop
  · exact hloop.trans halloc
  rename_i st
  have hreport := createReport_shows view plan.hooks.length st.world
  split <;> rename_i heq <;> rw [heq] at hreport <;>
    exact (hreport.trans hloop).trans halloc

/-! ## Releasing and waiting -/

theorem freeHook_shows (hook : Hook) (w : World ε) :
    (freeHook engines hook w).shows view = w.shows view :=
  releasePrepared_shows hlocal hook w

theorem releaseHooks_shows (hooks : List Hook) (runtime : Runtime) (w : World ε) :
    (releaseHooks engines hooks runtime w).2.shows view = w.shows view := by
  induction hooks generalizing runtime w with
  | nil => rfl
  | cons hook rest ih =>
    rw [releaseHooks]
    split
    · have hgrow := growArray_host runtime.pending.length runtime.pendingCapacity w.env
      rw [adoptPendingHook]
      generalize growArray runtime.pending.length runtime.pendingCapacity w.env = grown at hgrow ⊢
      obtain ⟨ok, env⟩ := grown
      cases ok with
      | true => exact (ih _ _).trans (congrArg view hgrow)
      | false =>
        exact (ih _ _).trans ((freeHook_shows hlocal hook _).trans (congrArg view hgrow))
    · exact (ih _ _).trans (freeHook_shows hlocal hook w)

theorem freePendingHooks_shows (runtime : Runtime) (w : World ε) :
    (freePendingHooks engines runtime w).2.shows view = w.shows view := by
  rw [freePendingHooks]
  dsimp only
  generalize runtime.pending = hooks
  induction hooks generalizing w with
  | nil => rfl
  | cons hook rest ih => exact (ih _).trans (freeHook_shows hlocal hook w)

theorem drainPrepare_shows (runtime : RuntimeId) (hook : Hook) (w : World ε) :
    (drainPrepare engines runtime hook w).2.2.2.shows view = w.shows view := by
  rw [drainPrepare]
  dsimp only
  rw [validatePrepareEffects_shows hlocal, dispatchPrepare_shows hlocal]

end Engines

end HookKit
