import HookKit.Plan.Hook

/-!
# Building a plan

Plans, domains and runtimes, and the functions that fill a plan while it is a draft:
`hk_plan_create`, `hk_plan_define_domain` and `hk_plan_add_hook`.  Adding a hook copies its target,
so it can run out of memory at every string and byte block it copies.
-/

set_option autoImplicit false

namespace HookKit

/-- `struct hk_domain`. -/
structure Domain where
  domainId : Id
  spec : DomainSpec

/-- `struct hk_plan`, less its debug label. -/
structure Plan where
  planId : Id
  runtime : RuntimeId
  state : PlanState
  domains : List Domain
  domainCapacity : Nat
  hooks : List Hook
  hookCapacity : Nat

/-- One entry of `engines[]`, `engine_ctxs[]` and `engine_testing[]`. -/
structure Registration where
  engine : EngineRef
  testing : Bool

/-- `struct hk_runtime`, as far as plans and the pending queue look into it.  Its image catalog is
part of the surroundings. -/
structure Runtime where
  ownerId : Id
  installContext : InstallContext
  platformArchitecture : Mask32
  platformIosVersion : Nat
  engines : List Registration
  pending : List Hook
  pendingCapacity : Nat
  artifacts : Option Ledger

variable {ε : Type}

/-! ## Copying a request -/

/-- `hk_strdup_checked`. -/
def copyString (s : Option String) (env : Env ε) : Bool × Env ε :=
  if s.isSome then env.alloc else (true, env)

/-- `hk_bytes_dup_checked`. -/
def copyBytes (view : BytesView) (env : Env ε) : Option BytesView × Env ε :=
  if view.data.isNone || view.size = 0 then (some ⟨none, 0⟩, env)
  else
    match env.alloc with
    | (false, env) => (none, env)
    | (true, env) => (some view, env)

/-- The children of an explicit set, each copied by `copy`. -/
def copyChildren (copy : ImageSelector → Env ε → Except Status ImageSelector × Env ε) :
    List (Option ImageSelector) → Env ε → Except Status (List (Option ImageSelector)) × Env ε
  | [], env => (.ok [], env)
  | none :: _, env => (.error .invalidArgument, env)
  | some child :: rest, env =>
    match copy child env with
    | (.error status, env) => (.error status, env)
    | (.ok child, env) =>
      match copyChildren copy rest env with
      | (.error status, env) => (.error status, env)
      | (.ok rest, env) => (.ok (some child :: rest), env)

/-- `hk_image_selector_copy_owned`.  The first argument counts the levels left below
`HK_MAX_IMAGE_SELECTOR_DEPTH`.  Where the array of children cannot be allocated, the clean-up of the
source walks it all the same; `Plan.Storage` has no step there, and here is the status it is about
to return. -/
def copySelectorOwned : Nat → ImageSelector → Env ε → Except Status ImageSelector × Env ε
  | 0, _, env => (.error .invalidArgument, env)
  | levels + 1, src, env =>
    match env.alloc with
    | (false, env) => (.error .outOfMemory, env)
    | (true, env) =>
      match copyString src.path env with
      | (false, env) => (.error .outOfMemory, env)
      | (true, env) =>
        if src.kind = .explicitSet then
          match src.explicitSet with
          | none => (.error .invalidArgument, env)
          | some [] => (.ok (.mk src.kind src.path src.uuid src.header (some [])), env)
          | some (child :: rest) =>
            match env.allocAll 2 with
            | (false, env) => (.error .outOfMemory, env)
            | (true, env) =>
              match copyChildren (copySelectorOwned levels) (child :: rest) env with
              | (.error status, env) => (.error status, env)
              | (.ok set, env) => (.ok (.mk src.kind src.path src.uuid src.header (some set)), env)
        else (.ok (.mk src.kind src.path src.uuid src.header (some [])), env)

/-- `hk_image_selector_copy`. -/
def copySelector (src : ImageSelector) (env : Env ε) : Except Status ImageSelector × Env ε :=
  copySelectorOwned 33 src env

/-- `hk_hook_copy_target`. -/
def copyTarget (target : Target) (env : Env ε) : Except Status Target × Env ε :=
  match target with
  | .symbol t =>
    match copyString t.name env with
    | (false, env) => (.error .outOfMemory, env)
    | (true, env) =>
      match copySelector t.definingImage env with
      | (.error status, env) => (.error status, env)
      | (.ok defining, env) =>
        match copySelector t.callerImageScope env with
        | (.error status, env) => (.error status, env)
        | (.ok scope, env) =>
          (.ok (.symbol { t with definingImage := defining, callerImageScope := scope }), env)
  | .address t =>
    match copySelector t.expectedImage env with
    | (.error status, env) => (.error status, env)
    | (.ok image, env) =>
      match copyBytes t.expectedInitialBytes env with
      | (none, env) => (.error .outOfMemory, env)
      | (some bytes, env) =>
        (.ok (.address { t with expectedImage := image, expectedInitialBytes := bytes }), env)
  | .objc t =>
    match copyString t.className env with
    | (false, env) => (.error .outOfMemory, env)
    | (true, env) =>
      match copyString t.selectorName env with
      | (false, env) => (.error .outOfMemory, env)
      | (true, env) => (.ok (.objc t), env)
  | .memory t =>
    match (if t.addressIsImageRelative then copySelector t.baseImage env
      else (.ok ImageSelector.zero, env)) with
    | (.error status, env) => (.error status, env)
    | (.ok base, env) =>
      match copyBytes t.replacementBytes env with
      | (none, env) => (.error .outOfMemory, env)
      | (some replacement, env) =>
        match copyBytes t.expectedBytes env with
        | (none, env) => (.error .outOfMemory, env)
        | (some expected, env) =>
          match copyBytes t.expectedMask env with
          | (none, env) => (.error .outOfMemory, env)
          | (some mask, env) =>
            (.ok (.memory { t with
              baseImage := base, replacementBytes := replacement
              expectedBytes := expected, expectedMask := mask }), env)
  | .swiftVtable => (.error .unavailable, env)

/-! ## Drafting -/

/-- `hk_plan_create`. -/
def createPlan (runtime : RuntimeId) (w : World ε) : Except Status Plan × World ε :=
  match w.alloc with
  | (false, w) => (.error .outOfMemory, w)
  | (true, w) =>
    let (planId, w) := w.freshId
    (.ok { planId := planId, runtime := runtime, state := .draft, domains := []
           domainCapacity := 0, hooks := [], hookCapacity := 0 }, w)

/-- The capacity of an array of pointers that has to hold one more. -/
def grownCapacity (count capacity : Nat) : Nat :=
  if count = capacity then (if capacity = 0 then 4 else capacity * 2) else capacity

/-- Make room for one more pointer. -/
def growArray (count capacity : Nat) (env : Env ε) : Bool × Env ε :=
  if count = capacity then env.alloc else (true, env)

/-- `hk_plan_define_domain`. -/
def defineDomain (plan : Plan) (spec : DomainSpec) (w : World ε) :
    Except Status Domain × Plan × World ε :=
  if plan.state ≠ .draft then (.error .invalidState, plan, w)
  else if spec.structSize < sizeofDomainSpec then (.error .invalidArgument, plan, w)
  else if spec.stableDomainId.isNone then (.error .invalidArgument, plan, w)
  else if plan.domains.any fun domain ↦ domain.spec.stableDomainId = spec.stableDomainId then
    (.error .invalidArgument, plan, w)
  else
    match w.alloc with
    | (false, w) => (.error .outOfMemory, plan, w)
    | (true, w) =>
      match w.alloc with
      | (false, w) => (.error .outOfMemory, plan, w)
      | (true, w) =>
        let (domainId, w) := w.freshId
        match growArray plan.domains.length plan.domainCapacity w.env with
        | (false, env) => (.error .outOfMemory, plan, w.setEnv env)
        | (true, env) =>
          let domain : Domain := ⟨domainId, { spec with structSize := sizeofDomainSpec }⟩
          (.ok domain, { plan with
            domains := plan.domains ++ [domain]
            domainCapacity := grownCapacity plan.domains.length plan.domainCapacity },
            w.setEnv env)

/-- The checks of `hk_plan_add_hook_impl` that come before it allocates anything. -/
def admissible (plan : Plan) (spec : HookSpec) : Except Status Unit :=
  if plan.state ≠ .draft then .error .invalidState
  else if spec.structSize < sizeofHookSpec then .error .invalidArgument
  else if spec.stableHookId.isNone then .error .invalidArgument
  else if (match spec.target with
      | .memory t => t.expectedBytes.data.isNone
      | _ => false) then .error .invalidArgument
  else if spec.originalRequirement = .callableContinuation ∧
      spec.continuationPolicy = .forbidden then .error .invalidArgument
  else if plan.hooks.any fun hook ↦ hook.spec.stableHookId = spec.stableHookId then
    .error .invalidArgument
  else if (match spec.domain with
      | none => false
      | some domain => !plan.domains.any fun d ↦ d.domainId = domain) then .error .invalidArgument
  else
    match spec.commitAfter with
    | none => .error .invalidArgument
    | some after =>
      if after.all fun entry ↦ entry.any fun dependency ↦
          plan.hooks.any fun hook ↦ hook.hookId = dependency then .ok ()
      else .error .invalidArgument

/-- The result a hook is added with. -/
def HookResult.added (requestId : Id) : HookResult :=
    { HookResult.zero with requestId := requestId }

/-- `hk_plan_add_hook`. -/
def addHook (stripCode : Ptr → Ptr) (plan : Plan) (spec : HookSpec) (w : World ε) :
    Except Status Id × Plan × World ε :=
  match admissible plan spec with
  | .error status => (.error status, plan, w)
  | .ok () =>
    match w.alloc with
    | (false, w) => (.error .outOfMemory, plan, w)
    | (true, w) =>
      match w.alloc with
      | (false, w) => (.error .outOfMemory, plan, w)
      | (true, w) =>
        match copyTarget spec.target w.env with
        | (.error status, env) => (.error status, plan, w.setEnv env)
        | (.ok target, env) =>
          match targetKeyCopy stripCode target env with
          | (none, env) => (.error .outOfMemory, plan, w.setEnv env)
          | (some key, env) =>
            -- siblings prepare against the same pre-commit state, so they cannot form a chain
            if plan.hooks.any fun hook ↦ hook.targetKey = key then
              (.error .invalidArgument, plan, w.setEnv env)
            else
              match (if spec.after ≠ [] then env.alloc else (true, env)) with
              | (false, env) => (.error .outOfMemory, plan, w.setEnv env)
              | (true, env) =>
                let (hookId, w) := (w.setEnv env).freshId
                match growArray plan.hooks.length plan.hookCapacity w.env with
                | (false, env) => (.error .outOfMemory, plan, w.setEnv env)
                | (true, env) =>
                  let hook : Hook := {
                    hookId := hookId
                    spec := { spec with structSize := sizeofHookSpec, target := target }
                    targetKey := key, matchedEngine := none, preparedState := 0
                    preparedContinuation := none, installed := none
                    result := .added hookId }
                  (.ok hookId, { plan with
                    hooks := plan.hooks ++ [hook]
                    hookCapacity := grownCapacity plan.hooks.length plan.hookCapacity },
                    w.setEnv env)

end HookKit
