import HookKit.Core.Engine
import HookKit.Core.Ownership

/-!
# The process

The state all runtimes and plans of a process share (the ownership ledger, the installed registry,
the process ledger, the identifier counter, the surroundings), and the history of what reached the
engines and what became of it.  The history is not part of the program: it is written down so that
statements about whole runs can refer to it.
-/

set_option autoImplicit false

namespace HookKit

/-- `hk_installed_hook_t`: the process-lifetime record of an active hook, with its original slot. -/
structure Installed where
  installedId : Id
  hasOriginal : Bool
  /-- `slot.original`, what `hk_original_slot_load` loads. -/
  original : Ptr
  result : HookResult

/-! ## History -/

/-- The three ways to an engine: one hook at a time, as a wave, or from the pending queue. -/
inductive Path where
  | single | group | drain
deriving DecidableEq, Repr

/-- A hook is handed to an engine's commit callback. -/
structure CommitCall where
  path : Path
  hook : Id
  key : Key
  engineId : Option String
  /-- The image generation the hook recorded, and the catalog's at this moment. -/
  recorded : Nat
  current : Nat
  /-- The record of the key at this moment, and the predecessor the engine is told to require. -/
  owner : Option Owner
  requiredPredecessor : Option Ptr
  requirement : OriginalRequirement
  /-- The hook's installed record at this moment, if it has one. -/
  installed : Option Installed

/-- A hook is settled by a commit or a drain, after an engine was asked or without. -/
structure CommitSettled where
  path : Path
  hook : Id
  after : List Id
  key : Key
  engineId : Option String
  replacement : Ptr
  requiredPredecessor : Option Ptr
  published : Ptr
  requirement : OriginalRequirement
  installed : Option Installed
  outcome : Outcome

inductive Event where
  | prepareCall (path : Path) (hook : Id) (recorded current : Nat)
  | prepareSettled (hook : Id) (outcome : Outcome)
  | obtained (hook : Id) (engine : Option EngineRef) (prepared : Ptr)
  | released (hook : Id) (engine : Option EngineRef) (prepared : Ptr)
  | commitCall (call : CommitCall)
  | compensateCall (accepted : Bool) (flagged : List Id)
  | commitSettled (settled : CommitSettled)

/-- The calls of commit callbacks. -/
def commitCalls (history : List Event) : List CommitCall :=
  history.filterMap fun e ↦
    match e with
    | .commitCall c => some c
    | _ => none

theorem mem_commitCalls {history : List Event} {c : CommitCall} (h : c ∈ commitCalls history) :
    .commitCall c ∈ history := by
  obtain ⟨e, he, heq⟩ := List.mem_filterMap.mp h
  cases e with
  | commitCall c' =>
    cases heq
    exact he
  | _ => cases heq

/-- The process. -/
structure World (ε : Type) where
  env : Env ε
  nextId : Id
  owners : Owners
  installed : List Installed
  processLedger : Option Ledger
  /-- Newest event first. -/
  history : List Event

variable {ε : Type}

namespace World

def log (w : World ε) (e : Event) : World ε := { w with history := e :: w.history }

def setEnv (w : World ε) (env : Env ε) : World ε := { w with env := env }

@[simp] theorem log_env (w : World ε) (e : Event) : (w.log e).env = w.env := rfl
@[simp] theorem log_owners (w : World ε) (e : Event) : (w.log e).owners = w.owners := rfl
@[simp] theorem log_history (w : World ε) (e : Event) : (w.log e).history = e :: w.history := rfl
@[simp] theorem setEnv_env (w : World ε) (env : Env ε) : (w.setEnv env).env = env := rfl
@[simp] theorem setEnv_owners (w : World ε) (env : Env ε) : (w.setEnv env).owners = w.owners := rfl
@[simp] theorem setEnv_history (w : World ε) (env : Env ε) :
    (w.setEnv env).history = w.history := rfl

/-- Run a callback. -/
def call {α : Type} (w : World ε) (f : Env ε → α × Env ε) : α × World ε :=
  ((f w.env).1, w.setEnv (f w.env).2)

/-- One allocation. -/
def alloc (w : World ε) : Bool × World ε := w.call Env.alloc

/-- `hk_id_generate`. -/
def freshId (w : World ε) : Id × World ε := (w.nextId, { w with nextId := w.nextId + 1 })

/-- `hk_installed_record_create`. -/
def createInstalled (w : World ε) (installedId : Id) (original : Ptr) (result : HookResult) :
    Option Installed × World ε :=
  match w.alloc with
  | (false, w) => (none, w)
  | (true, w) =>
    let record : Installed := ⟨installedId, original != 0, original, result⟩
    (some record, { w with installed := record :: w.installed })

/-- `hk_ownership_record_locked`. -/
def recordOwner (w : World ε) (key : Key) (engineId : Option String)
    (replacement predecessor : Ptr) : Bool × World ε :=
  match w.owners.record key engineId replacement predecessor w.env with
  | (ok, owners, env) => (ok, { w with owners := owners, env := env })

/-- `hk_artifact_process_append_ledger`; the ledger is created on first use. -/
def appendProcessLedger (w : World ε) (source : Ledger) : World ε :=
  match w.processLedger with
  | some ledger =>
    match ledger.appendLedger source w.env with
    | (_, ledger, env) => { w with processLedger := some ledger, env := env }
  | none =>
    match w.env.alloc with
    | (false, env) => w.setEnv env
    | (true, env) =>
      match Ledger.empty.appendLedger source env with
      | (_, ledger, env) => { w with processLedger := some ledger, env := env }

end World

/-! ## Sinks -/

/-- `hk_artifact_sink_record`. -/
def Sink.record (sink : Sink) (a : Artifact) (w : World ε) : Sink × World ε :=
  let sink := { sink with observedEffects := sink.observedEffects ||| a.effects }
  let (artifactId, w) := w.freshId
  let stamped := { a with
    artifactId := artifactId, planId := sink.planId, requestId := sink.requestId,
    runtimeOwnerId := sink.runtimeOwnerId }
  match sink.ledger.append stamped w.env with
  | (ok, ledger, env) =>
    ({ sink with ledger := ledger, recordFailed := sink.recordFailed || !ok }, w.setEnv env)

/-- Everything a callback does to a sink it was handed. -/
def Sink.write (sink : Sink) (writes : SinkWrites) (w : World ε) : Sink × World ε :=
  let (sink, w) := writes.records.foldl (fun (sink, w) a ↦ sink.record a w) (sink, w)
  ({ sink with
    publishedOriginal := writes.publishedOriginal.getD sink.publishedOriginal
    continuation := writes.continuation <|> sink.continuation }, w)

end HookKit
