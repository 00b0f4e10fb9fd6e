import HookKit.Core.Targets
import HookKit.Core.Env

/-!
# The ownership ledger

`HKOwnership.c`: one record for each target key that has ever been taken, with the replacement at
the head of its chain.  The functions ending in `_locked` there run under the process-wide lock.

* `targetKey` — the canonical key of a target.
* `Owners.lookup`, `Owners.record` — the ledger, newest record first.
-/

set_option autoImplicit false

namespace HookKit

/-! ## Keys -/

/-- A little-endian value of `n` bytes, as `key_u8`, `key_u32` and `key_u64` append it. -/
def keyBytes (n value : Nat) : List Byte :=
  (List.range n).map fun i ↦ BitVec.ofNat 8 (value / 2 ^ (8 * i))

/-- The bytes of a C string. -/
def stringBytes (s : String) : List Byte := s.toUTF8.data.toList.map UInt8.toBitVec

/-- `key_string`. -/
def keyString : Option String → List Byte
  | none => keyBytes 8 (2 ^ 64 - 1)
  | some s => keyBytes 8 (stringBytes s).length ++ stringBytes s

/-- `key_blob_compare`, as the test whether the first blob does not come after the second. -/
def keyBlobLe : List Byte → List Byte → Bool
  | [], _ => true
  | _ :: _, [] => false
  | a :: as, b :: bs => if a = b then keyBlobLe as bs else a < b

/-- What `key_selector` appends for a selector that is not an explicit set. -/
def keyLeaf (selector : ImageSelector) : List Byte :=
  keyBytes 4 selector.kind.code ++
    match selector.kind with
    | .exactPath => keyString selector.path
    | .exactUuid => selector.uuid
    | .exactHeader => keyBytes 8 selector.header
    | _ => []

/-- `key_selector_collect`.  The first argument counts the levels left below
`HK_OWNERSHIP_MAX_IMAGE_SELECTOR_DEPTH`. -/
def keySelectorCollect : Nat → ImageSelector → Option (List (List Byte))
  | 0, _ => none
  | levels + 1, selector =>
    if selector.kind = .explicitSet then
      match selector.explicitSet with
      | none => none
      | some set =>
        (set.mapM fun (child : Option ImageSelector) ↦ child.bind (keySelectorCollect levels)).map
          List.flatten
    else some [keyLeaf selector]

/-- Drop every blob that equals the one kept before it. -/
def dropRepeats : List (List Byte) → List (List Byte)
  | a :: b :: rest => if a = b then dropRepeats (b :: rest) else a :: dropRepeats (b :: rest)
  | blobs => blobs

/-- `key_selector` at depth `0`. -/
def keySelector (selector : ImageSelector) : Option (List Byte) :=
  if selector.kind = .explicitSet then do
    let blobs ← keySelectorCollect 33 selector
    let children := dropRepeats (blobs.mergeSort keyBlobLe)
    return keyBytes 4 selector.kind.code ++ keyBytes 8 children.length ++
      (children.map fun child ↦ keyBytes 8 child.length ++ child).flatten
  else some (keyLeaf selector)

/-- A flag as `key_u8` appends it. -/
def keyFlag (b : Bool) : List Byte := keyBytes 1 b.toNat

/-- `key_target`.  `stripCode` is `hk_pac_strip_code` of the platform. -/
def targetKey (stripCode : Ptr → Ptr) (target : Target) : Option (List Byte) := do
  let fields ← match target with
    | .symbol t => do
      let defining ← keySelector t.definingImage
      let scope ← keySelector t.callerImageScope
      some (keyString t.name ++ keyBytes 4 t.nameConvention ++ keyBytes 4 t.aliasPolicy ++
        keyFlag t.interiorAddressPermitted ++ defining ++ scope)
    | .address t =>
      some (keyBytes 8 (if t.mayStripPacOrThumbState then stripCode t.address else t.address))
    | .objc t =>
      some (keyFlag (t.cls != 0) ++
        (if t.cls ≠ 0 then keyBytes 8 t.cls else keyString t.className) ++
        keyFlag (t.sel != 0) ++
          (if t.sel ≠ 0 then keyBytes 8 t.sel else keyString t.selectorName) ++
        keyBytes 4 t.methodKind)
    | .memory t => do
      let base ← if t.addressIsImageRelative then keySelector t.baseImage else some []
      some (keyBytes 8 t.address ++ keyFlag t.addressIsImageRelative ++ keyBytes 8 t.size ++ base)
    | .swiftVtable => some []
  return keyBytes 4 target.kind.code ++ fields

variable {ε : Type}

/-- `hk_ownership_target_key_copy`.  The buffer the key grows in is one allocation here. -/
def targetKeyCopy (stripCode : Ptr → Ptr) (target : Target) (env : Env ε) :
    Option (List Byte) × Env ε :=
  match env.alloc with
  | (false, env) => (none, env)
  | (true, env) => (targetKey stripCode target, env)

/-! ## Records -/

abbrev Key := List Byte

/-- `hk_ownership_record_t`; as `hk_ownership_state_t` it is what a lookup copies out. -/
structure Owner where
  engineId : Option String
  headReplacement : Ptr
  predecessor : Ptr
deriving DecidableEq, Repr

/-- `g_ownership_records`, newest first. -/
abbrev Owners := List (Key × Owner)

namespace Owners

/-- `hk_ownership_lookup_locked`; `none` is `present = false`. -/
def lookup (owners : Owners) (key : Key) : Option Owner := List.lookup key owners

/-- Update the record of a key that has one.  The engine of a record never changes. -/
def update (owners : Owners) (key : Key) (replacement predecessor : Ptr) : Owners :=
  match owners with
  | [] => []
  | (k, owner) :: rest =>
    if key = k then
      (k, { owner with headReplacement := replacement, predecessor := predecessor }) :: rest
    else (k, owner) :: update rest key replacement predecessor

/-- The allocations of a new record: itself, its key and, where there is one, the engine's
identifier. -/
def allocRecord (engineId : Option String) (env : Env ε) : Bool × Env ε :=
  match env.alloc with
  | (false, env) => (false, env)
  | (true, env) =>
    match env.alloc with
    | (false, env) => (false, env)
    | (true, env) => if engineId.isSome then env.alloc else (true, env)

/-- `hk_ownership_record_locked`. -/
def record (owners : Owners) (key : Key) (engineId : Option String) (replacement predecessor : Ptr)
    (env : Env ε) : Bool × Owners × Env ε :=
  match owners.lookup key with
  | some _ => (true, owners.update key replacement predecessor, env)
  | none =>
    match allocRecord engineId env with
    | (false, env) => (false, owners, env)
    | (true, env) => (true, (key, ⟨engineId, replacement, predecessor⟩) :: owners, env)

/-- What the record of a key says after its head was replaced. -/
def headed (before : Option Owner) (engineId : Option String) (replacement predecessor : Ptr) :
    Owner :=
  ⟨(before.map Owner.engineId).getD engineId, replacement, predecessor⟩

theorem lookup_cons (k : Key) (owner : Owner) (rest : Owners) (key : Key) :
    lookup ((k, owner) :: rest) key = if key = k then some owner else rest.lookup key := by
  rw [lookup, List.lookup_cons]
  by_cases h : key = k
  · simp [h]
  · rw [if_neg h, beq_eq_false_iff_ne.mpr h]; rfl

theorem lookup_update_self (owners : Owners) (key : Key) (replacement predecessor : Ptr) :
    (owners.update key replacement predecessor).lookup key =
      (owners.lookup key).map fun owner ↦
        { owner with headReplacement := replacement, predecessor := predecessor } := by
  induction owners with
  | nil => rfl
  | cons entry rest ih =>
    obtain ⟨k, owner⟩ := entry
    rw [update, lookup_cons]
    by_cases h : key = k
    · rw [if_pos h, if_pos h, lookup_cons, if_pos h]; rfl
    · rw [if_neg h, if_neg h, lookup_cons, if_neg h, ih]

theorem lookup_update_of_ne (owners : Owners) {key other : Key} (hne : other ≠ key)
    (replacement predecessor : Ptr) :
    (owners.update key replacement predecessor).lookup other = owners.lookup other := by
  induction owners with
  | nil => rfl
  | cons entry rest ih =>
    obtain ⟨k, owner⟩ := entry
    rw [update]
    by_cases h : key = k
    · subst h
      rw [if_pos rfl, lookup_cons, lookup_cons, if_neg hne, if_neg hne]
    · rw [if_neg h, lookup_cons, lookup_cons, ih]

/-- **What recording does.**  It either refuses and changes nothing, or heads the key's record and
leaves every other key alone. -/
theorem record_cases (owners : Owners) (key : Key) (engineId : Option String)
    (replacement predecessor : Ptr) (env : Env ε) :
    ((record owners key engineId replacement predecessor env).1 = false ∧
      (record owners key engineId replacement predecessor env).2.1 = owners) ∨
    ((record owners key engineId replacement predecessor env).1 = true ∧
      (∀ other, lookup (record owners key engineId replacement predecessor env).2.1 other =
        if other = key then some (headed (owners.lookup key) engineId replacement predecessor)
        else owners.lookup other)) := by
  rw [record]
  cases hfound : owners.lookup key with
  | some owner =>
    refine .inr ⟨rfl, fun other ↦ ?_⟩
    by_cases h : other = key
    · subst h
      rw [if_pos rfl, lookup_update_self, hfound]
      rfl
    · rw [if_neg h, lookup_update_of_ne owners h]
  | none =>
    rcases allocRecord engineId env with ⟨ok, env'⟩
    cases ok with
    | false => exact .inl ⟨rfl, rfl⟩
    | true => exact .inr ⟨rfl, fun other ↦ lookup_cons key _ owners other⟩

end Owners

end HookKit
