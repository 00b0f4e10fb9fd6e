import HookKit.Core.Env

/-!
# The artifact ledger

`HKArtifactLedger.c`: the append-only list of what the engines did.  Copying an artifact copies the
views it borrows, so it can fail; so can growing the array.
-/

set_option autoImplicit false

namespace HookKit

/-- `hk_artifact_state_t`. -/
inductive ArtifactState where
  | planned | prepared | pending | committed | verified | lateApplied | partiallyApplied
  | compensated | rolledBack | invalidated | discarded | observedExisting
deriving DecidableEq, Repr

/-- `hk_string_view_t` as an engine hands it over: the length is its own claim. -/
structure StringView where
  data : Option String
  length : Nat
deriving DecidableEq, Repr

/-- `hk_byte_storage_t`: whether the bytes are inline, where they are and how many. -/
structure ByteStorage where
  inlined : Bool
  data : Option (List Byte)
  size : Nat
deriving DecidableEq, Repr

/-- `hk_artifact_t`, less the mechanism's facts that the core copies without looking. -/
structure Artifact where
  artifactId : Id
  runtimeOwnerId : Id
  planId : Id
  requestId : Id
  state : ArtifactState
  effects : Mask
  verified : Bool
  engineId : StringView
  mechanismId : StringView
  imagePath : Option String
  originalBytes : ByteStorage
  expectedBytes : ByteStorage
  expectedMask : ByteStorage
  currentBytes : ByteStorage
deriving DecidableEq, Repr

/-- The bytes of a string view that `owned_copy` stores, or `none` where it gives up. -/
def StringView.addTo (view : StringView) (total : Nat) : Option Nat :=
  match view.data with
  | none => if view.length ≠ 0 then none else some total
  | some _ =>
    if view.length = sizeMax ∨ view.length + 1 > sizeMax - total then none
    else some (total + (view.length + 1))

/-- The bytes of a byte view that `owned_copy` stores, or `none` where it gives up. -/
def ByteStorage.addTo (storage : ByteStorage) (total : Nat) : Option Nat :=
  if !storage.inlined then some total
  else if (storage.size ≠ 0 ∧ storage.data = none) ∨ storage.size > sizeMax - total then none
  else some (total + storage.size)

/-- The size of the payload `owned_copy` allocates. -/
def Artifact.payloadSize (a : Artifact) : Option Nat := do
  let total ← a.engineId.addTo 0
  let total ← a.mechanismId.addTo total
  let total ← StringView.addTo ⟨a.imagePath, (a.imagePath.map String.utf8ByteSize).getD 0⟩ total
  let total ← a.originalBytes.addTo total
  let total ← a.expectedBytes.addTo total
  let total ← a.expectedMask.addTo total
  a.currentBytes.addTo total

variable {ε : Type}

/-- `owned_copy`. -/
def ownedCopy (a : Artifact) (env : Env ε) : Bool × Env ε :=
  match a.payloadSize with
  | none => (false, env)
  | some 0 => (true, env)
  | some (_ + 1) => env.alloc

/-- `hk_artifact_ledger_t`. -/
structure Ledger where
  items : List Artifact
  capacity : Nat
deriving DecidableEq, Repr

namespace Ledger

/-- A ledger from `calloc`. -/
def empty : Ledger := ⟨[], 0⟩

/-- `hk_artifact_ledger_count`. -/
def count (l : Ledger) : Nat := l.items.length

/-- The capacity `ensure_capacity` grows to: doubled until it holds `needed`. -/
def grow (needed : Nat) : Nat → Nat → Nat
  | 0, _ => needed
  | fuel + 1, capacity =>
    if capacity < needed then
      if capacity > sizeMax / 2 then needed else grow needed fuel (capacity * 2)
    else capacity

/-- `ensure_capacity`. -/
def ensureCapacity (l : Ledger) (needed : Nat) (env : Env ε) : Bool × Ledger × Env ε :=
  if needed ≤ l.capacity then (true, l, env)
  else
    match env.alloc with
    | (false, env) => (false, l, env)
    | (true, env) =>
      (true, { l with capacity := grow needed 64 (if l.capacity = 0 then 4 else l.capacity) }, env)

/-- `hk_artifact_ledger_append`. -/
def append (l : Ledger) (a : Artifact) (env : Env ε) : Bool × Ledger × Env ε :=
  match ownedCopy a env with
  | (false, env) => (false, l, env)
  | (true, env) =>
    match l.ensureCapacity (l.count + 1) env with
    | (false, l, env) => (false, l, env)
    | (true, l, env) => (true, { l with items := l.items ++ [a] }, env)

/-- The copies `hk_artifact_ledger_append_ledger` makes; all of them or none. -/
def copyAll : List Artifact → Env ε → Bool × Env ε
  | [], env => (true, env)
  | a :: rest, env =>
    match ownedCopy a env with
    | (false, env) => (false, env)
    | (true, env) => copyAll rest env

/-- `hk_artifact_ledger_append_ledger`. -/
def appendLedger (l source : Ledger) (env : Env ε) : Bool × Ledger × Env ε :=
  if source.count = 0 then (true, l, env)
  else if source.count > sizeMax - l.count then (false, l, env)
  else
    match l.ensureCapacity (l.count + source.count) env with
    | (false, l, env) => (false, l, env)
    | (true, l, env) =>
      match copyAll source.items env with
      | (false, env) => (false, l, env)
      | (true, env) => (true, { l with items := l.items ++ source.items }, env)

/-- Apply `f` to the `count` items from `start` on. -/
def mapRange (l : Ledger) (start count : Nat) (f : Artifact → Artifact) : Ledger :=
  { l with items := l.items.mapIdx fun i a ↦ if start ≤ i ∧ i < start + count then f a else a }

/-- `hk_artifact_ledger_mark_verified`; `none` is the refusal of a range that is not there. -/
def markVerified (l : Ledger) (start count : Nat) : Option Ledger :=
  if start > l.count ∨ count > l.count - start then none
  else some (l.mapRange start count fun a ↦ { a with state := .verified, verified := true })

/-- `hk_artifact_ledger_mark_compensated`. -/
def markCompensated (l : Ledger) (start count : Nat) : Option Ledger :=
  if start > l.count ∨ count > l.count - start then none
  else some (l.mapRange start count fun a ↦ { a with state := .compensated, verified := false })

/-! ## Allocating moves nothing but the heap -/

theorem ownedCopy_generation (a : Artifact) (env : Env ε) :
    (ownedCopy a env).2.generation = env.generation := by
  rw [ownedCopy]
  split <;> simp

theorem ensureCapacity_generation (l : Ledger) (needed : Nat) (env : Env ε) :
    (l.ensureCapacity needed env).2.2.generation = env.generation := by
  have halloc := Env.alloc_generation env
  rw [ensureCapacity]
  split
  · rfl
  · split <;> rename_i heq <;> rw [heq] at halloc <;> exact halloc

theorem append_generation (l : Ledger) (a : Artifact) (env : Env ε) :
    (l.append a env).2.2.generation = env.generation := by
  have hcopy := ownedCopy_generation a env
  rw [append]
  split <;> rename_i heq <;> rw [heq] at hcopy
  · exact hcopy
  · rename_i env'
    have hgrow := ensureCapacity_generation l (l.count + 1) env'
    split <;> rename_i heq' <;> rw [heq'] at hgrow <;> exact hgrow.trans hcopy

end Ledger

end HookKit
