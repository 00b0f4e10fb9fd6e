import HookKit.Engines.Reloc

/-!
# The provider engines

`HKProviderVtable.c`: an inline hook is installed by a vendor library.  Where the library publishes
the original too late, HookKit builds the continuation itself (the *hybrid* path), on the same pages
as the relocating engine.

* `ProviderProfile` and its four instances — what is known about each library.
* `providerPrepare`, `providerCommit`, `providerRelease` — the callbacks of the adapter.
-/

set_option autoImplicit false

namespace HookKit

open Arm64

variable {ε : Type}

/-! ## Profiles -/

/-- `hk_provider_kind_t`. -/
inductive ProviderKind where
  | dobby | gum | ellekit | substitute
deriving DecidableEq, Repr

/-- `provider_profile_t`, less the names and the declarations the descriptor is made of. -/
structure ProviderProfile where
  kind : ProviderKind
  inspectionSize : Nat
  originalRequirements : Mask32
  publishesOriginalBeforeActivation : Bool

/-- The originals every provider can publish: none, or a callable continuation. -/
def providerRequirements : Mask32 :=
  maskBit OriginalRequirement.none.code ||| maskBit OriginalRequirement.callableContinuation.code

/-- `g_dobby_profile`, `g_gum_profile`, `g_ellekit_profile` and `g_substitute_profile`. -/
def dobbyProfile : ProviderProfile := ⟨.dobby, 16, providerRequirements, true⟩
def gumProfile : ProviderProfile := ⟨.gum, 4, providerRequirements, true⟩
def ellekitProfile : ProviderProfile := ⟨.ellekit, 4, providerRequirements, false⟩
def substituteProfile : ProviderProfile := ⟨.substitute, 4, providerRequirements, true⟩

/-- `hk_provider_engine_ctx_t`; a NULL function is `none`. -/
structure ProviderEngineCtx (ε : Type) where
  kind : ProviderKind
  /-- `prepare`: whether the provider is ready, and its diagnosis. -/
  prepare : Option (Machine ε → (Bool × PrepareDiag) × Machine ε)
  /-- `validate`: whether the provider accepts the request for the address it is given. -/
  validate : Option (HookSpec → Addr → Machine ε → (Bool × PrepareDiag) × Machine ε)
  /-- `hook`: the provider's status, and the original it wrote where it was asked for one. -/
  hook : Option (Addr → Addr → Bool → Machine ε → (Int × Addr) × Machine ε)
  /-- `read`: the bytes, when they could be read. -/
  read : Option (Addr → Nat → Machine ε → Option (List Byte) × Machine ε)
  maxOverwriteSize : Nat
  seams : PageSeams ε

/-- `provider_prepared_t`. -/
structure ProviderPrepared where
  target : Addr
  replacement : Ptr
  inspectionSize : Nat
  inspected : List Byte
  hybrid : Bool
  providerCalled : Bool
  continuation : RelocPlan

/-- `provider_hybrid_available`. -/
def providerHybridAvailable (ctx : ProviderEngineCtx ε) : Bool :=
  ctx.maxOverwriteSize ≠ 0 && ctx.maxOverwriteSize ≤ relocMaxPatch &&
    ctx.maxOverwriteSize % 4 = 0 &&
    ctx.seams.alloc.isSome && ctx.seams.sealPage.isSome

/-- `provider_needs_hybrid`. -/
def providerNeedsHybrid (profile : ProviderProfile) (spec : HookSpec) : Bool :=
  !profile.publishesOriginalBeforeActivation && spec.originalRequirement = .callableContinuation

/-- Whether the provider can publish the original the request asks for. -/
def providerPublishes (profile : ProviderProfile) (spec : HookSpec) : Bool :=
  profile.originalRequirements &&& maskBit spec.originalRequirement.code ≠ 0

/-! ## The callbacks -/

/-- Read the entry, through the provider's own reader where it has one. -/
def ProviderEngineCtx.readEntry (ctx : ProviderEngineCtx ε) (target : Addr) (size : Nat)
    (p : Process ε) : Option (List Byte) × Process ε :=
  if size = 0 then (some [], p)
  else
    match ctx.read with
    | none => (some (p.machine.readBytes target size), p)
    | some read => p.run (read target size)

/-- A refusal with a diagnosis. -/
def providerRefuse (message : String) (p : Process ε) :
    PrepareResult × Option ProviderPrepared × PrepareDiag × Process ε :=
  (.failed, none, ⟨0, some message, 0⟩, p)

/-- The end of `provider_prepare`: the provider is made ready, and a continuation it will not need
is given back. -/
def providerActivate (ctx : ProviderEngineCtx ε) (prepared : ProviderPrepared) (p : Process ε) :
    PrepareResult × Option ProviderPrepared × PrepareDiag × Process ε :=
  let ((ready, diag), p) :=
    match ctx.prepare with
    | none => ((true, PrepareDiag.zero), p)
    | some prepare => p.run prepare
  if !ready then
    (.failed, none,
      { diag with errorMessage := some (diag.errorMessage.getD "provider activation failed") },
      if prepared.hybrid then
        ctx.seams.giveBack prepared.continuation.trampoline prepared.continuation.trampolineSize p
      else p)
  else
    (.ok, some prepared,
      if prepared.hybrid then
        { diag with
          observedEffects := diag.observedEffects ||| prepared.continuation.mapping.kind.effect }
      else diag, p)

/-- The middle of `provider_prepare`: the continuation of the hybrid path. -/
def providerBuild (ctx : ProviderEngineCtx ε) (target : AddressTarget) (prepared : ProviderPrepared)
    (p : Process ε) : PrepareResult × Option ProviderPrepared × PrepareDiag × Process ε :=
  if prepared.hybrid then
    match relocPrepareContinuation prepared.target ctx.maxOverwriteSize
      target.pinned ctx.seams p with
    | (.ok, plan, p) => providerActivate ctx { prepared with continuation := plan } p
    | (status, _, p) =>
      (.failed, none,
        ⟨status.code, some "HookKit cannot relocate the provider's overwrite window", 0⟩, p)
  else providerActivate ctx prepared p

/-- `provider_prepare`. -/
def providerPrepare (host : Host ε) (profile : ProviderProfile) (ctx : ProviderEngineCtx ε)
    (spec : HookSpec) (p : Process ε) :
    PrepareResult × Option ProviderPrepared × PrepareDiag × Process ε :=
  match spec.target with
  | .address target =>
    let address := host.targetAddress target
    if ctx.kind ≠ profile.kind ∨ spec.replacement = 0 ∨ address = 0 ∨ ctx.hook.isNone then
      providerRefuse "provider adapter received invalid hook state" p
    else if !providerPublishes profile spec then
      providerRefuse "provider cannot publish the requested original" p
    else
      let hybrid := providerNeedsHybrid profile spec
      if hybrid ∧ !providerHybridAvailable ctx then
        providerRefuse "provider has no audited overwrite bound for a HookKit continuation" p
      else
        let inspectionSize := if hybrid then ctx.maxOverwriteSize else profile.inspectionSize
        if inspectionSize > relocMaxPatch ∨ target.expectedInitialBytes.size > inspectionSize then
          providerRefuse
            "provider cannot revalidate a precondition larger than its inspected entry window" p
        else
          let ((accepted, diag), p) :=
            match ctx.validate with
            | none => ((true, PrepareDiag.zero), p)
            | some validate => p.run (validate spec address)
          if !accepted then
            (.failed, none, { diag with
              errorMessage :=
                some (diag.errorMessage.getD "provider preflight refused the target") }, p)
          else if target.expectedInitialBytes.size ≠ 0 ∧
              target.pinned ≠ some
                (p.machine.readBytes address target.expectedInitialBytes.size) then
            providerRefuse "target does not match the request's expected entry bytes" p
          else
            match p.run host.malloc with
            | (false, p) => providerRefuse "out of memory" p
            | (true, p) =>
              match ctx.readEntry address inspectionSize p with
              | (none, p) => providerRefuse "provider entry bytes are unreadable" p
              | (some inspected, p) =>
                providerBuild ctx target
                  { target := address, replacement := spec.replacement,
                    inspectionSize := inspectionSize
                    inspected := inspected, hybrid := hybrid, providerCalled := false
                    continuation := .zero } p
  | _ => providerRefuse "provider adapter received invalid hook state" p

/-- `provider_commit`: the mutation, the original that is published, and the prepared state, which
remembers that the provider was called. -/
def providerCommit (host : Host ε) (profile : ProviderProfile) (ctx : ProviderEngineCtx ε)
    (spec : HookSpec) (requirePredecessorMatch : Bool) (prepared : ProviderPrepared)
    (p : Process ε) :
    Mutation × Option Addr × ProviderPrepared × Process ε :=
  match spec.target, ctx.hook with
  | .address target, some hook =>
    if ctx.kind ≠ profile.kind ∨ prepared.target ≠ host.targetAddress target ∨
        prepared.replacement ≠ spec.replacement ∨ !providerPublishes profile spec ∨
        requirePredecessorMatch then (.none, none, prepared, p)
    else
      let (current, p) := ctx.readEntry prepared.target prepared.inspectionSize p
      if current ≠ some prepared.inspected then (.none, none, prepared, p)
      else
        let wantsOriginal := !prepared.hybrid && profile.publishesOriginalBeforeActivation
        let published :=
          spec.originalRequirement = .callableContinuation &&
            (profile.publishesOriginalBeforeActivation || prepared.hybrid)
        let prepared := { prepared with providerCalled := true }
        let p := if prepared.hybrid then p.log (.provided prepared.continuation.trampoline) else p
        let ((status, native), p) :=
          p.run (hook prepared.target (BitVec.ofNat 64 spec.replacement) wantsOriginal)
        let original :=
          if prepared.hybrid then some (host.makeCallable prepared.continuation.originalEntry)
          else if wantsOriginal then some (host.makeCallable native) else none
        -- a provider that fails may have patched the target in part
        if status ≠ 0 ∨ (wantsOriginal ∧ native = 0) then
          (.unknown,
            if prepared.hybrid then original else if published then some native else none,
            prepared, p)
        else (.complete, if published then original else none, prepared, p)
  | _, _ => (.none, none, prepared, p)

/-- `provider_release`. -/
def providerRelease (ctx : ProviderEngineCtx ε) (prepared : ProviderPrepared) (p : Process ε) :
    Process ε :=
  if prepared.hybrid ∧ !prepared.providerCalled ∧ prepared.continuation.trampoline ≠ 0 then
    ctx.seams.giveBack prepared.continuation.trampoline prepared.continuation.trampolineSize p
  else p

end HookKit
