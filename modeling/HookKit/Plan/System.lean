import HookKit.Plan.Drain

/-!
# Runs

Any number of plans over any number of runtimes of one process, one call after the other, with
anything happening in between.

* `Op`, `System.step`, `System.run` — the calls, and a sequence of them.
* `System.Meets` — a sequence whose calls all meet a condition.
* `System.Initial` — a process in which HookKit has not done anything yet.
-/

set_option autoImplicit false

namespace HookKit

/-- The process with its runtimes and plans. -/
structure System (ε : Type) where
  world : World ε
  runtimes : RuntimeId → Runtime
  plans : Nat → Option Plan

/-- The calls of the public interface, on plans held in numbered slots, and what may happen outside
of HookKit between two of them. -/
inductive Op (ε : Type) where
  | createPlan (slot : Nat) (runtime : RuntimeId)
  | defineDomain (slot : Nat) (spec : DomainSpec)
  | addHook (slot : Nat) (spec : HookSpec)
  | analyze (slot : Nat)
  | prepare (slot : Nat)
  | commit (slot : Nat)
  | releasePlan (slot : Nat)
  | drain (runtime : RuntimeId)
  | releaseRuntime (runtime : RuntimeId)
  | register (runtime : RuntimeId) (engines : List Registration)
  | outside (change : Env ε → Env ε)

variable {ε : Type}

namespace System

def setPlan (s : System ε) (slot : Nat) (plan : Option Plan) : System ε :=
  { s with plans := Function.update s.plans slot plan }

def setRuntime (s : System ε) (id : RuntimeId) (runtime : Runtime) : System ε :=
  { s with runtimes := Function.update s.runtimes id runtime }

def setWorld (s : System ε) (w : World ε) : System ε := { s with world := w }

variable (engines : EngineRef → Engine ε) (stripCode : Ptr → Ptr)

/-- A call on the plan in a slot; nothing happens when the slot is empty. -/
def onPlan (s : System ε) (slot : Nat) (f : Plan → System ε) : System ε :=
  match s.plans slot with
  | none => s
  | some plan => f plan

/-- One call. -/
def step (s : System ε) : Op ε → System ε
  | .createPlan slot runtime =>
    match s.plans slot with
    | some _ => s
    | none =>
      match HookKit.createPlan runtime s.world with
      | (.ok plan, w) => (s.setPlan slot (some plan)).setWorld w
      | (.error _, w) => s.setWorld w
  | .defineDomain slot spec => s.onPlan slot fun plan ↦
    let (_, plan, w) := HookKit.defineDomain plan spec s.world
    (s.setPlan slot (some plan)).setWorld w
  | .addHook slot spec => s.onPlan slot fun plan ↦
    let (_, plan, w) := HookKit.addHook stripCode plan spec s.world
    (s.setPlan slot (some plan)).setWorld w
  | .analyze slot => s.onPlan slot fun plan ↦
    let (_, plan, w) := analyzePlan engines (s.runtimes plan.runtime) plan s.world
    (s.setPlan slot (some plan)).setWorld w
  | .prepare slot => s.onPlan slot fun plan ↦
    let (_, plan, w) := preparePlan engines plan s.world
    (s.setPlan slot (some plan)).setWorld w
  | .commit slot => s.onPlan slot fun plan ↦
    let (_, committed, runtime, w) := commitPlan engines (s.runtimes plan.runtime) plan s.world
    ((s.setPlan slot (some committed)).setRuntime plan.runtime runtime).setWorld w
  | .releasePlan slot => s.onPlan slot fun plan ↦
    let (runtime, w) := HookKit.releasePlan engines (s.runtimes plan.runtime) plan s.world
    ((s.setPlan slot none).setRuntime plan.runtime runtime).setWorld w
  | .drain runtime =>
    let (_, _, _, r, w) := drainPending engines runtime (s.runtimes runtime) s.world
    (s.setRuntime runtime r).setWorld w
  | .releaseRuntime runtime =>
    let (r, w) := freePendingHooks engines (s.runtimes runtime) s.world
    (s.setRuntime runtime r).setWorld w
  | .register runtime registered =>
    s.setRuntime runtime { s.runtimes runtime with engines := registered }
  | .outside change => s.setWorld (s.world.setEnv (change s.world.env))

/-- A sequence of calls. -/
def run (s : System ε) (ops : List (Op ε)) : System ε := ops.foldl (step engines stripCode) s

/-- A process in which nothing has been hooked, planned or queued. -/
structure Initial (s : System ε) : Prop where
  history : s.world.history = []
  owners : s.world.owners = []
  installed : s.world.installed = []
  plans : ∀ slot, s.plans slot = none
  pending : ∀ id, (s.runtimes id).pending = []

/-- Every call of the sequence meets a condition when it is made. -/
def Meets (cond : System ε → Op ε → Prop) : System ε → List (Op ε) → Prop
  | _, [] => True
  | s, op :: rest => cond s op ∧ Meets cond (s.step engines stripCode op) rest

variable {engines : EngineRef → Engine ε} {stripCode : Ptr → Ptr}

instance Meets.decidable {cond : System ε → Op ε → Prop} [∀ s op, Decidable (cond s op)] :
    ∀ (s : System ε) (ops : List (Op ε)), Decidable (Meets engines stripCode cond s ops)
  | _, [] => inferInstanceAs (Decidable True)
  | s, op :: rest =>
    have : Decidable (Meets engines stripCode cond (s.step engines stripCode op) rest) :=
      Meets.decidable _ rest
    inferInstanceAs (Decidable (cond s op ∧ Meets engines stripCode cond _ rest))

/-- **The run rule.**  What a call keeps, provided it meets `cond`, holds after every sequence of
calls that meet `cond`. -/
theorem Meets.invariant (I : System ε → Prop) {cond : System ε → Op ε → Prop}
    (hstep : ∀ s op, I s → cond s op → I (s.step engines stripCode op)) {ops : List (Op ε)}
    {s : System ε} (hmeets : Meets engines stripCode cond s ops) (h : I s) :
    I (s.run engines stripCode ops) := by
  induction ops generalizing s with
  | nil => exact h
  | cons op rest ih => exact ih hmeets.2 (hstep s op h hmeets.1)

/-- Conditions that agree wherever an invariant holds are met by the same sequences. -/
theorem Meets.congr (I : System ε → Prop) {P Q : System ε → Op ε → Prop}
    (hstep : ∀ s op, I s → I (s.step engines stripCode op))
    (h : ∀ s op, I s → (P s op ↔ Q s op)) {s : System ε} (hI : I s) (ops : List (Op ε)) :
    Meets engines stripCode P s ops ↔ Meets engines stripCode Q s ops := by
  induction ops generalizing s with
  | nil => exact Iff.rfl
  | cons op rest ih => exact and_congr (h s op hI) (ih (hstep s op hI))

/-- A condition that follows from another one wherever an invariant holds. -/
theorem Meets.imp (I : System ε → Prop) {P Q : System ε → Op ε → Prop}
    (hstep : ∀ s op, I s → P s op → I (s.step engines stripCode op))
    (h : ∀ s op, I s → P s op → Q s op) {s : System ε} (hI : I s) {ops : List (Op ε)}
    (hP : Meets engines stripCode P s ops) : Meets engines stripCode Q s ops := by
  induction ops generalizing s with
  | nil => trivial
  | cons op rest ih => exact ⟨h s op hI hP.1, ih (hstep s op hI hP.1) hP.2⟩

theorem meets_true (s : System ε) (ops : List (Op ε)) :
    Meets engines stripCode (fun _ _ ↦ True) s ops := by
  induction ops generalizing s with
  | nil => trivial
  | cons op rest ih => exact ⟨trivial, ih _⟩

theorem run_append (s : System ε) (ops ops' : List (Op ε)) :
    s.run engines stripCode (ops ++ ops') =
    (s.run engines stripCode ops).run engines stripCode ops' :=
  List.foldl_append

theorem Meets.append {cond : System ε → Op ε → Prop} {s : System ε} {ops ops' : List (Op ε)}
    (h : Meets engines stripCode cond s (ops ++ ops')) :
    Meets engines stripCode cond s ops ∧
      Meets engines stripCode cond (s.run engines stripCode ops) ops' := by
  induction ops generalizing s with
  | nil => exact ⟨trivial, h⟩
  | cons op rest ih =>
    obtain ⟨hrest, hafter⟩ := ih h.2
    exact ⟨⟨h.1, hrest⟩, hafter⟩

/-- What every call keeps holds after every sequence of calls. -/
theorem run_invariant (I : System ε → Prop) (hstep : ∀ s op, I s → I (s.step engines stripCode op))
    (s : System ε) (ops : List (Op ε)) (h : I s) : I (s.run engines stripCode ops) :=
  (meets_true s ops).invariant I (fun s op hI _ ↦ hstep s op hI) h

end System

/-! ## A process to try things in -/

/-- An engine that answers by looking at the request and at its own state, which it does not change.
It serves every kind of target, may be chained, and publishes the predecessor it is told to require.
-/
def Engine.scripted (prepare : ε → HookSpec → PrepareResult) (commit : ε → HookSpec → Mutation) :
    Engine ε where
  describe := { Capabilities.zero with
    engineId := some "scripted", targetKinds := BitVec.allOnes 32
    chainableTargetKinds := BitVec.allOnes 32 }
  discover := none
  analyzeOperation := none
  prepareOne := none
  commitOne := none
  verifyOne := none
  prepareOneCtx := none
  commitOneCtx := some fun spec _ sink env ↦
    (⟨commit env.host spec, ⟨[], sink.requiredPredecessor, none⟩⟩, env)
  releasePrepared := none
  verifyOneCtx := none
  prepareOneCtxStatus := some fun spec env ↦ (⟨prepare env.host spec, 1, .zero⟩, env)
  prepareGroupCtx := none
  revalidateGroupCtx := none
  commitGroupCtx := none
  verifyGroupCtx := none
  compensateGroupCtx := none
  inspectContinuation := none

/-- The request to replace the function at an address. -/
def HookSpec.atAddress (name : String) (address replacement : Ptr) : HookSpec where
  structSize := sizeofHookSpec
  stableHookId := some name
  target := .address {
    address := address, expectedImage := .zero, expectedUuid := none
    expectedInitialBytes := ⟨none, 0⟩, mayStripPacOrThumbState := false }
  replacement := replacement
  requiredReach := 0
  preferredReach := 0
  originalRequirement := .none
  continuationPolicy := .any
  constraints := 0
  availability := .requiredNow
  role := .optional
  domain := none
  commitOrder := 0
  commitAfter := some []

/-- A process in which nothing has happened; its runtimes know one engine, under reference `0`. -/
def System.fresh (host : ε) (generation : RuntimeId → Nat) : System ε where
  world := {
    env := ⟨host, fun _ ↦ 0, generation, []⟩
    nextId := 1, owners := [], installed := [], processLedger := none, history := [] }
  runtimes := fun id ↦ {
    ownerId := id, installContext := .mainThreadSerialized, platformArchitecture := 0
    platformIosVersion := 0, engines := [⟨0, false⟩], pending := [], pendingCapacity := 0
    artifacts := none }
  plans := fun _ ↦ none

theorem System.fresh_initial (host : ε) (generation : RuntimeId → Nat) :
    (System.fresh host generation).Initial :=
  ⟨rfl, rfl, rfl, fun _ ↦ rfl, fun _ ↦ rfl⟩

/-- The calls that take one request through a plan. -/
def Op.hookOne (slot : Nat) (spec : HookSpec) : List (Op ε) :=
  [.createPlan slot 0, .addHook slot spec, .analyze slot, .prepare slot, .commit slot]

end HookKit
