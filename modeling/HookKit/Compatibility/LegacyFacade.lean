import HookKit.Compatibility.LegacyRoute
import HookKit.Plan.System

/-!
# The legacy facade

`HKLegacyFacade.c`: a call of the old interface makes a runtime and a plan of its own, takes its
requests through them, and releases both.  The single call and the batched one are written out
separately in the source, and separately here.

* `createRuntime` — `hk_runtime_create_impl`, as the facade calls it.
* `mapStatus`, `mapResult` — the old status codes, and what is left in the caller's cells.
* `applyPlan` — one request.
* `applySpecs` — a batch.
-/

set_option autoImplicit false

namespace HookKit.Legacy

open Backends

variable {ε : Type}

/-! ## The runtime of a call -/

/-- What the facade finds in the process around it. -/
structure Host (ε : Type) where
  architecture : Mask32
  iosVersion : Nat
  /-- `hk_runtime_register_platform_engines`, and `hk_runtime_apply_backend_override` on what it
  registered. -/
  registerEngines : Option Text → Env ε → List Registration × Env ε
  /-- The name the loader has for an address. -/
  dladdr : Ptr → Option String

/-- `hk_runtime_create_with_backend_override` with the facade's configuration, for the runtime that
will be known as `self`.  Its image catalog is new and empty. -/
def createRuntime (host : Host ε) (self : RuntimeId) (backendIds : Option Text) (w : World ε) :
    Option Runtime × World ε :=
  match w.alloc with
  | (false, w) => (none, w)
  | (true, w) =>
    let (ownerId, w) := w.freshId
    match w.alloc with
    | (false, w) => (none, w)
    | (true, w) =>
      match w.alloc with
      | (false, w) => (none, w)
      | (true, w) =>
        let env := { w.env with
          imageCount := Function.update w.env.imageCount self 0
          generation := Function.update w.env.generation self 0 }
        let (engines, env) := host.registerEngines backendIds env
        (some { ownerId := ownerId, installContext := .earlyProcess
                platformArchitecture := host.architecture
                platformIosVersion := host.iosVersion, engines := engines, pending := []
                pendingCapacity := 0, artifacts := some .empty }, w.setEnv env)

/-! ## Results -/

/-- The caller's cells for originals: what the one at an address holds. -/
abbrev Cells : Type := Ptr → Ptr

/-- A store through a pointer that may be NULL. -/
def Cells.store (cells : Cells) (cell : Option Ptr) (value : Ptr) : Cells :=
  match cell with
  | none => cells
  | some cell => Function.update cells cell value

/-- `map_status`. -/
def mapStatus : Status → LegacyStatus
  | .invalidArgument => .invalidArgument
  | .unavailable => .notSupported
  | .ok => .ok
  | _ => .err

/-- `hk_original_slot_load` of `hk_hook_original_slot`. -/
def loadOriginal (hook : Hook) : Ptr :=
  match hook.installed with
  | none => 0
  | some record => if record.hasOriginal then record.original else 0

/-- `map_result`, of a hook that may be NULL. -/
def mapResult (hook : Option Hook) (original : Option Ptr) (cells : Cells) : LegacyStatus × Cells :=
  match hook with
  | none => (.err, cells)
  | some hook =>
    -- a live replacement may already use an original that was published early
    let cells := if hook.result.mutation = .none then cells.store original 0 else cells
    match hook.result.outcome with
    | .active =>
      match original with
      | none => (.ok, cells)
      | some cell =>
        if !hook.result.originalAvailable then (.err, cells)
        else
          let cells :=
            if loadOriginal hook ≠ 0 then cells.store original (loadOriginal hook) else cells
          (if cells cell ≠ 0 then .ok else .err, cells)
    | .noRoute | .failedSafe => (.notSupported, cells)
    | .failedPartial => (.errPartial, cells)
    | _ => (.err, cells)

/-- The continuation a hook was prepared with goes to the caller before the commit. -/
def publishEarly (hook : Option Hook) (original : Option Ptr) (cells : Cells) : Cells :=
  match hook with
  | none => cells
  | some hook =>
    if hook.result.outcome = .prepared ∧ hook.result.continuation.address ≠ 0 then
      cells.store original hook.result.continuation.address
    else cells

/-! ## One request -/

variable (engines : EngineRef → Engine ε) (stripCode : Ptr → Ptr) (host : Host ε)
  (self : RuntimeId) (backendIds : Option Text)

/-- `hk_plan_release` and `hk_runtime_release`. -/
def releaseBoth (runtime : Runtime) (plan : Plan) (w : World ε) : World ε :=
  let (runtime, w) := releasePlan engines runtime plan w
  (freePendingHooks engines runtime w).2

/-- `apply_plan` from the analysis on. -/
def applyAdmitted (runtime : Runtime) (plan : Plan) (hookId : Id) (original : Option Ptr)
    (cells : Cells) (w : World ε) : LegacyStatus × Cells × World ε :=
  match analyzePlan engines runtime plan w with
  | (.ok, plan, w) =>
    match preparePlan engines plan w with
    | (.ok, plan, w) =>
      let hook := findHook plan.hooks hookId
      if original.isSome ∧ hook.map (·.result.outcome) ≠ some .prepared then
        (.err, cells, releaseBoth engines runtime plan w)
      else
        let cells := publishEarly hook original cells
        let (status, plan, runtime, w) := commitPlan engines runtime plan w
        let (result, cells) := mapResult (findHook plan.hooks hookId) original cells
        -- the report can fail after the mutation, so the hook is mapped first
        (if status ≠ .ok then mapStatus status else result, cells,
          releaseBoth engines runtime plan w)
    | (_, plan, w) => (.err, cells, releaseBoth engines runtime plan w)
  | (_, plan, w) => (.err, cells, releaseBoth engines runtime plan w)

/-- `apply_plan`. -/
def applyPlan (spec : HookSpec) (original : Option Ptr) (cells : Cells) (w : World ε) :
    LegacyStatus × Cells × World ε :=
  let cells := cells.store original 0
  match createRuntime host self backendIds w with
  | (none, w) => (.notSupported, cells, w)
  | (some runtime, w) =>
    match createPlan self w with
    | (.error _, w) => (.err, cells, (freePendingHooks engines runtime w).2)
    | (.ok plan, w) =>
      match routeFunctionSpec host.dladdr spec backendIds with
      | (.ok, routed) =>
        match addHook stripCode plan routed w with
        | (.error status, plan, w) =>
          (mapStatus status, cells, releaseBoth engines runtime plan w)
        | (.ok hookId, plan, w) => applyAdmitted engines runtime plan hookId original cells w
      | (status, _) => (status, cells, releaseBoth engines runtime plan w)

/-! ## A batch -/

/-- One entry of `specs` with its entry of `originals`. -/
structure LegacyOp where
  spec : HookSpec
  original : Option Ptr

/-- What is known of an entry once the hooks are added: its status, and its entry of `hooks`. -/
structure Added where
  status : LegacyStatus
  hook : Option Id

/-- The entry after `hk_plan_add_hook`. -/
def Added.ofAdd : Except Status Id → Added
  | .ok hookId => ⟨mapStatus .ok, some hookId⟩
  | .error status => ⟨mapStatus status, none⟩

/-- The loop that adds the hooks; one rejected spec does not block its siblings. -/
def addSpecs : List LegacyOp → Plan → World ε → List Added × Plan × World ε
  | [], plan, w => ([], plan, w)
  | op :: rest, plan, w =>
    match routeFunctionSpec host.dladdr op.spec backendIds with
    | (.ok, routed) =>
      let (added, plan, w) := addHook stripCode plan routed w
      let (rest, plan, w) := addSpecs rest plan w
      (.ofAdd added :: rest, plan, w)
    | (status, _) =>
      let (rest, plan, w) := addSpecs rest plan w
      (⟨status, none⟩ :: rest, plan, w)

/-- The loop that publishes early. -/
def publishAll (hooks : List Hook) : List LegacyOp → List Added → Cells → Cells
  | op :: ops, added :: rest, cells =>
    publishAll hooks ops rest
      (publishEarly (added.hook.bind (findHook hooks)) op.original cells)
  | _, _, cells => cells

/-- The loop that maps the results. -/
def mapResults (hooks : List Hook) :
    List LegacyOp → List Added → Cells → List LegacyStatus × Cells
  | op :: ops, added :: rest, cells =>
    match added.hook with
    | none =>
      let (results, cells) := mapResults hooks ops rest cells
      (added.status :: results, cells)
    | some hookId =>
      let (result, cells) := mapResult (findHook hooks hookId) op.original cells
      let (results, cells) := mapResults hooks ops rest cells
      (result :: results, cells)
  | _, _, cells => ([], cells)

/-- How many of the hooks that were added ended well. -/
def succeeded : List Added → List LegacyStatus → Nat
  | added :: rest, result :: results =>
    (if added.hook.isSome ∧ result = .ok then 1 else 0) + succeeded rest results
  | _, _ => 0

/-- Analysis, preparation and commit of a batch, as far as they go. -/
def installSpecs (runtime : Runtime) (ops : List LegacyOp) (added : List Added) (plan : Plan)
    (cells : Cells) (w : World ε) : Cells × Plan × Runtime × World ε :=
  match analyzePlan engines runtime plan w with
  | (.ok, plan, w) =>
    match preparePlan engines plan w with
    | (.ok, plan, w) =>
      let cells := publishAll plan.hooks ops added cells
      let (_, plan, runtime, w) := commitPlan engines runtime plan w
      (cells, plan, runtime, w)
    | (_, plan, w) => (cells, plan, runtime, w)
  | (_, plan, w) => (cells, plan, runtime, w)

/-- `hk_legacy_apply_specs_with_backend_ids`.  Where the plan cannot be created the runtime is not
released. -/
def applySpecs (ops : List LegacyOp) (cells : Cells) (w : World ε) :
    LegacyStatus × List LegacyStatus × Cells × World ε :=
  if ops = [] then (.ok, [], cells, w)
  else
    match w.alloc with
    | (false, w) => (.err, ops.map fun _ ↦ .err, cells, w)
    | (true, w) =>
      match createRuntime host self backendIds w with
      | (none, w) => (.notSupported, ops.map fun _ ↦ .notSupported, cells, w)
      | (some runtime, w) =>
        match createPlan self w with
        | (.error _, w) => (.err, ops.map fun _ ↦ .err, cells, w)
        | (.ok plan, w) =>
          let (added, plan, w) := addSpecs stripCode host backendIds ops plan w
          let (cells, plan, runtime, w) := installSpecs engines runtime ops added plan cells w
          let (results, cells) := mapResults plan.hooks ops added cells
          let w := releaseBoth engines runtime plan w
          let count := succeeded added results
          (if count = ops.length then .ok else if count ≠ 0 then .errPartial else .err, results,
            cells, w)

end HookKit.Legacy
