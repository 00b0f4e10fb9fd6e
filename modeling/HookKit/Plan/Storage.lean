import HookKit.Lib.Heap
import HookKit.Plan.Build

/-!
# Where a request is stored

`Plan.Build` copies a target as a value.  Here it stands in memory, with pointers to its strings,
its bytes and its selectors, and `hk_hook_copy_target` copies it block by block.  The caller keeps
the memory the request came from, and may do with it what it likes.

A target says what can be read along the pointers that its kind gives a meaning: the base image of
an absolute memory patch, the members of a selector that is no explicit set, and a view without data
say nothing.
-/

set_option autoImplicit false

namespace HookKit

/-- An address; `0` is NULL. -/
abbrev BlockAddr := Nat

/-- `hk_image_selector_t`, with its pointers. -/
structure RawSelector where
  kind : ImageSelectorKind
  path : BlockAddr
  uuid : List Byte
  header : Ptr
  explicitSet : BlockAddr
  explicitSetCount : Nat
deriving DecidableEq, Repr

/-- A selector after `memset`. -/
def RawSelector.zero : RawSelector := ⟨.anyLoaded, 0, List.replicate 16 0, 0, 0, 0⟩

/-- What can stand at an address. -/
inductive MemoryBlock where
  | text (s : String)
  | bytes (bytes : List Byte)
  | pointers (addresses : List BlockAddr)
  | selector (value : RawSelector)
deriving DecidableEq, Repr

abbrev BlockHeap := Heap MemoryBlock

/-- `hk_bytes_view_t`. -/
structure RawBytes where
  data : BlockAddr
  size : Nat
deriving DecidableEq, Repr

/-- `hk_symbol_target_t`. -/
structure RawSymbolTarget where
  name : BlockAddr
  nameConvention : Nat
  visibility : Nat
  definingImage : RawSelector
  callerImageScope : RawSelector
  aliasPolicy : Nat
  interiorAddressPermitted : Bool

/-- `hk_address_target_t`. -/
structure RawAddressTarget where
  address : Ptr
  expectedImage : RawSelector
  expectedUuid : Option (List Byte)
  expectedInitialBytes : RawBytes
  mayStripPacOrThumbState : Bool

/-- `hk_objc_target_t`; the class and the selector are not followed. -/
structure RawObjcTarget where
  cls : Ptr
  className : BlockAddr
  sel : Ptr
  selectorName : BlockAddr
  methodKind : Nat
  inheritancePolicy : Nat
  availability : Availability

/-- `hk_memory_target_t`. -/
structure RawMemoryTarget where
  address : Ptr
  addressIsImageRelative : Bool
  baseImage : RawSelector
  replacementBytes : RawBytes
  expectedBytes : RawBytes
  expectedMask : RawBytes
  size : Nat
  kind : Nat

/-- `hk_target_spec_t` with its `target_kind`. -/
inductive RawTarget where
  | symbol (target : RawSymbolTarget)
  | address (target : RawAddressTarget)
  | objc (target : RawObjcTarget)
  | memory (target : RawMemoryTarget)
  | swiftVtable

/-! ## What stands in memory -/

def readText (memory : BlockHeap) (a : BlockAddr) : Option (Option String) :=
  if a = 0 then some none
  else
    match memory.blocks a with
    | some (.text s) => some (some s)
    | _ => none

def RawBytes.read (view : RawBytes) (memory : BlockHeap) : Option BytesView :=
  if view.data = 0 ∨ view.size = 0 then some ⟨none, 0⟩
  else
    match memory.blocks view.data with
    | some (.bytes bytes) =>
      if view.size ≤ bytes.length then some ⟨some (bytes.take view.size), view.size⟩ else none
    | _ => none

/-- The first entries of an array of pointers. -/
def readPointers (memory : BlockHeap) (a : BlockAddr) (count : Nat) : Option (List BlockAddr) :=
  match memory.blocks a with
  | some (.pointers addresses) =>
    if count ≤ addresses.length then some (addresses.take count) else none
  | _ => none

def readSelectorAt (memory : BlockHeap) (a : BlockAddr) : Option RawSelector :=
  match memory.blocks a with
  | some (.selector value) => some value
  | _ => none

/-- What a selector says; the first argument counts the levels. -/
def readSelector : Nat → BlockHeap → RawSelector → Option ImageSelector
  | 0, _, _ => none
  | levels + 1, memory, raw => do
    let path ← readText memory raw.path
    if raw.kind = .explicitSet ∧ raw.explicitSetCount ≠ 0 then
      let entries ← readPointers memory raw.explicitSet raw.explicitSetCount
      let set ← entries.mapM fun a ↦ do readSelector levels memory (← readSelectorAt memory a)
      some (.mk raw.kind path raw.uuid raw.header (some (set.map some)))
    else some (.mk raw.kind path raw.uuid raw.header (some []))

/-- `HK_MAX_IMAGE_SELECTOR_DEPTH`, as a number of levels. -/
def selectorLevels : Nat := 33

def RawSelector.read (raw : RawSelector) (memory : BlockHeap) : Option ImageSelector :=
  readSelector selectorLevels memory raw

/-- The base image of a memory patch, where it has a meaning. -/
def RawMemoryTarget.readBase (target : RawMemoryTarget) (memory : BlockHeap) :
    Option ImageSelector :=
  if target.addressIsImageRelative then target.baseImage.read memory else some .zero

/-- What a target says. -/
def RawTarget.read (memory : BlockHeap) : RawTarget → Option Target
  | .symbol t => do
    let name ← readText memory t.name
    let defining ← t.definingImage.read memory
    let scope ← t.callerImageScope.read memory
    some (.symbol ⟨name, t.nameConvention, t.visibility, defining, scope, t.aliasPolicy,
      t.interiorAddressPermitted⟩)
  | .address t => do
    let image ← t.expectedImage.read memory
    let bytes ← t.expectedInitialBytes.read memory
    some (.address ⟨t.address, image, t.expectedUuid, bytes, t.mayStripPacOrThumbState⟩)
  | .objc t => do
    let className ← readText memory t.className
    let selectorName ← readText memory t.selectorName
    some (.objc ⟨t.cls, className, t.sel, selectorName, t.methodKind, t.inheritancePolicy,
      t.availability⟩)
  | .memory t => do
    let base ← t.readBase memory
    let replacement ← t.replacementBytes.read memory
    let expected ← t.expectedBytes.read memory
    let mask ← t.expectedMask.read memory
    some (.memory ⟨t.address, t.addressIsImageRelative, base, replacement, expected, mask, t.size,
      t.kind⟩)
  | .swiftVtable => some .swiftVtable

/-! ## Copying, block by block

The outer `none` is a step that has no meaning: a pointer of the caller's that points to nothing of
its type, or the clean-up at a NULL array. -/

variable {ε : Type}

/-- The heap, and the surroundings that decide which allocations succeed. -/
structure Store (ε : Type) where
  heap : BlockHeap
  env : Env ε

/-- `malloc` or `calloc` of a block that is filled at once. -/
def Store.alloc (s : Store ε) (b : MemoryBlock) : Option BlockAddr × Store ε :=
  match s.env.alloc with
  | (false, env) => (none, ⟨s.heap, env⟩)
  | (true, env) => (some s.heap.next, ⟨s.heap.alloc b, env⟩)

def Store.write (s : Store ε) (a : BlockAddr) (b : MemoryBlock) : Store ε :=
    ⟨s.heap.write a b, s.env⟩

@[simp] theorem Store.write_heap (s : Store ε) (a : BlockAddr) (b : MemoryBlock) :
    (s.write a b).heap = s.heap.write a b := rfl

def Store.freeAll (s : Store ε) (addresses : List BlockAddr) : Store ε :=
  ⟨s.heap.freeAll addresses, s.env⟩

/-- A part of a copy: what it is, or why there is none; and the blocks that now belong to the
hook. -/
abbrev Part (ε α : Type) := Option ((Except Status α × List BlockAddr) × Store ε)

/-- Go on with the next part of the copy, unless this one has failed. -/
def Part.andThen {α γ : Type} (part : Part ε α) (next : α → Store ε → Part ε γ) : Part ε γ :=
  match part with
  | none => none
  | some ((.error status, owned), s) => some ((.error status, owned), s)
  | some ((.ok a, owned), s) =>
    match next a s with
    | none => none
    | some ((r, more), s) => some ((r, owned ++ more), s)

/-- The copy is done. -/
def Part.done {α : Type} (a : α) (s : Store ε) : Part ε α := some ((.ok a, []), s)

/-- A part of a single block. -/
def Store.part (s : Store ε) (b : MemoryBlock) : Part ε BlockAddr :=
  match s.alloc b with
  | (none, s) => some ((.error .outOfMemory, []), s)
  | (some a, s) => some ((.ok a, [a]), s)

/-- `hk_strdup_checked`. -/
def strdup (memory : BlockHeap) (a : BlockAddr) (s : Store ε) : Part ε BlockAddr :=
  match readText memory a with
  | none => none
  | some none => some ((.ok 0, [0]), s)
  | some (some text) => s.part (.text text)

/-- `hk_bytes_dup_checked`. -/
def bytesDup (memory : BlockHeap) (view : RawBytes) (s : Store ε) : Part ε RawBytes :=
  match view.read memory with
  | none => none
  | some ⟨none, _⟩ => Part.done ⟨0, 0⟩ s
  | some ⟨some bytes, size⟩ => (s.part (.bytes bytes)).andThen fun a ↦ Part.done ⟨a, size⟩

/-- `hk_owned_image_selector_t`: its value, where it stands, and the blocks that
`hk_image_selector_owned_destroy` frees, in this order. -/
structure OwnedSelector where
  value : RawSelector
  self : BlockAddr
  blocks : List BlockAddr

/-- The loop over the explicit set.  The children stand in the owned selector as they are made, so
they are there also if it ends early. -/
def copyOwnedChildren (memory : BlockHeap)
    (copy : RawSelector → Store ε → Option (Except Status OwnedSelector × Store ε)) :
    List BlockAddr → Store ε → Option (Option Status × List OwnedSelector × Store ε)
  | [], s => some (none, [], s)
  | a :: rest, s =>
    if a = 0 then some (some .invalidArgument, [], s)
    else do
      let raw ← readSelectorAt memory a
      match ← copy raw s with
      | (.error status, s) => some (some status, [], s)
      | (.ok child, s) => do
        let (status, children, s) ← copyOwnedChildren memory copy rest s
        some (status, child :: children, s)

/-- `UINT64_MAX / sizeof(void *)`. -/
def maxPointers : Nat := (2 ^ 64 - 1) / 8

/-- The part of `hk_image_selector_copy_owned` about the explicit set.  `self` and `path` belong to
the owned selector already, and `value` is what it says so far. -/
def copyExplicitSet (memory : BlockHeap)
    (copy : RawSelector → Store ε → Option (Except Status OwnedSelector × Store ε))
    (raw value : RawSelector) (self path : BlockAddr) (s : Store ε) :
    Option (Except Status OwnedSelector × Store ε) :=
  if raw.explicitSetCount > 0 ∧ raw.explicitSet = 0 ∨ raw.explicitSetCount > maxPointers then
    some (.error .invalidArgument, s.freeAll [path, self])
  else if raw.explicitSetCount = 0 then
    some (.ok ⟨value, self, [path, self]⟩, s.write self (.selector value))
  else
    match s.alloc (.pointers (List.replicate raw.explicitSetCount 0)) with
    -- the clean-up walks the children of an owned selector that has no array of them
    | (none, _) => none
    | (some children, s) =>
      match s.alloc (.pointers (List.replicate raw.explicitSetCount 0)) with
      | (none, s) => some (.error .outOfMemory, s.freeAll [children, path, self])
      | (some views, s) => do
        let entries ← readPointers memory raw.explicitSet raw.explicitSetCount
        match ← copyOwnedChildren memory copy entries s with
        | (some status, made, s) =>
          some (.error status,
            s.freeAll (made.flatMap OwnedSelector.blocks ++ [children, views, path, self]))
        | (none, made, s) =>
          let addresses := made.map OwnedSelector.self
          let value := { value with explicitSet := views, explicitSetCount := raw.explicitSetCount }
          some (.ok ⟨value, self,
              made.flatMap OwnedSelector.blocks ++ [children, views, path, self]⟩,
            ((s.write children (.pointers addresses)).write views (.pointers addresses)).write self
              (.selector value))

/-- `hk_image_selector_copy_owned`.  The first argument counts the levels left below
`HK_MAX_IMAGE_SELECTOR_DEPTH`. -/
def copyOwned (memory : BlockHeap) :
    Nat → RawSelector → Store ε → Option (Except Status OwnedSelector × Store ε)
  | 0, _, s => some (.error .invalidArgument, s)
  | levels + 1, raw, s =>
    match s.alloc (.selector .zero) with
    | (none, s) => some (.error .outOfMemory, s)
    | (some self, s) =>
      match strdup memory raw.path s with
      | none => none
      | some ((.error status, _), s) => some (.error status, s.freeAll [self])
      | some ((.ok path, _), s) =>
        let value : RawSelector := ⟨raw.kind, path, raw.uuid, raw.header, 0, 0⟩
        if raw.kind = .explicitSet then
          copyExplicitSet memory (copyOwned memory levels) raw value self path s
        else some (.ok ⟨value, self, [path, self]⟩, s.write self (.selector value))

/-- `hk_image_selector_copy`. -/
def copyRawSelector (memory : BlockHeap) (raw : RawSelector) (s : Store ε) : Part ε RawSelector :=
  match copyOwned memory selectorLevels raw s with
  | none => none
  | some (.error status, s) => some ((.error status, []), s)
  | some (.ok owned, s) => some ((.ok owned.value, owned.blocks), s)

/-- The base image of a memory patch: what stands there is not to be trusted if the address is
absolute. -/
def copyBase (memory : BlockHeap) (target : RawMemoryTarget) (s : Store ε) : Part ε RawSelector :=
  if target.addressIsImageRelative then copyRawSelector memory target.baseImage s
  else Part.done .zero s

/-- `hk_hook_copy_target`; when it fails, the blocks are still the hook's. -/
def copyRawTarget (memory : BlockHeap) (target : RawTarget) (s : Store ε) : Part ε RawTarget :=
  match target with
  | .symbol t =>
    (strdup memory t.name s).andThen fun name s ↦
    (copyRawSelector memory t.definingImage s).andThen fun defining s ↦
    (copyRawSelector memory t.callerImageScope s).andThen fun scope ↦
    Part.done (.symbol
      { t with name := name, definingImage := defining, callerImageScope := scope })
  | .address t =>
    (copyRawSelector memory t.expectedImage s).andThen fun image s ↦
    (bytesDup memory t.expectedInitialBytes s).andThen fun bytes ↦
    Part.done (.address { t with expectedImage := image, expectedInitialBytes := bytes })
  | .objc t =>
    (strdup memory t.className s).andThen fun className s ↦
    (strdup memory t.selectorName s).andThen fun selectorName ↦
    Part.done (.objc { t with className := className, selectorName := selectorName })
  | .memory t =>
    (copyBase memory t s).andThen fun base s ↦
    (bytesDup memory t.replacementBytes s).andThen fun replacement s ↦
    (bytesDup memory t.expectedBytes s).andThen fun expected s ↦
    (bytesDup memory t.expectedMask s).andThen fun mask ↦
    Part.done (.memory { t with
      baseImage := base, replacementBytes := replacement
      expectedBytes := expected, expectedMask := mask })
  | .swiftVtable => some ((.error .unavailable, []), s)

end HookKit
