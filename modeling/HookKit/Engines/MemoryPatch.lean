import HookKit.Core.ImageScope
import HookKit.Engines.Reloc

/-!
# The memory-patch engine

`HKMemoryEngine.c` and its adapter `HKMemoryVtable.c`: bytes are written over a region, which has to
hold what the request expects when it is prepared, and still the same when it is committed.

* `mempatchPrepare`, `mempatchCommit` — the two phases of the engine.
* `memoryPrepareOne`, `memoryCommitOne` — the callbacks of the adapter.
* `platformMemoryEngine` — the context the runtime registers the engine with.
* `Carried` — what it takes for the writer to be called, said of the request and of the memory.
* `memoryPatch_eq` — the writer is called then, and only then, with the address of the target.
* `memoryPatch_hitsImage_iff` — where a patch lands that is relative to an image.
-/

set_option autoImplicit false

namespace HookKit

open Arm64 ImageScope MachO LittleEndian

/-- The value of a status as an error code. -/
def ImageScope.ScopeStatus.code : ScopeStatus → Int
  | .ok => 0
  | .noCatalog => 1
  | .noMatch => 2
  | .uuidMismatch => 3
  | .addressOutside => 4
  | .unreadableImage => 5

/-- `hk_image_scope_describe`. -/
def ImageScope.ScopeStatus.message : ScopeStatus → String
  | .ok => "address is inside the expected image"
  | .noCatalog => "image scope not checked: no image catalog is available"
  | .noMatch => "the image the request named is not loaded"
  | .uuidMismatch => "the image is loaded but is a different build than the request expected"
  | .addressOutside => "the address is not inside the image the request named"
  | .unreadableImage => "a matching image's header could not be parsed to bound it"

namespace MemoryPatch

/-! ## The engine -/

/-- `HK_MEMPATCH_MAX`. -/
def mempatchMax : Nat := 256

/-- `hk_mempatch_status_t`. -/
inductive MempatchStatus where
  | ok | invalidArgument | tooLarge | preconditionFailed
deriving DecidableEq, Repr

/-- The value of a status as an error code. -/
def MempatchStatus.code : MempatchStatus → Int
  | .ok => 0
  | .invalidArgument => 1
  | .tooLarge => 2
  | .preconditionFailed => 3

/-- `hk_mempatch_plan_t`, with the bytes of the region only. -/
structure MempatchPlan where
  original : List Byte
  size : Nat
  captured : Bool
deriving DecidableEq

/-- A plan after `memset`. -/
def MempatchPlan.zero : MempatchPlan := ⟨[], 0, false⟩

/-- `masked_equal`. -/
def maskedEqual (current expected : List Byte) (mask : Option (List Byte)) (size : Nat) : Bool :=
  (List.range size).all fun i ↦
    let m := match mask with
      | some mask => mask.getD i 0
      | none => 0xff
    current.getD i 0 &&& m = expected.getD i 0 &&& m

variable {ε : Type}

/-- `hk_mempatch_prepare`. -/
def mempatchPrepare (m : Machine ε) (address : Addr) (size : Nat) (expected mask : BytesView) :
    MempatchStatus × MempatchPlan :=
  if address = 0 ∨ size = 0 then (.invalidArgument, .zero)
  else if size > mempatchMax then (.tooLarge, .zero)
  else if expected.data.isSome ∧ (expected.size ≠ size ∨ (mask.data.isSome ∧ mask.size ≠ size)) then
    (.invalidArgument, .zero)
  else
    let original := m.readBytes address size
    match expected.data with
    | none => (.ok, ⟨original, size, true⟩)
    | some bytes =>
      if maskedEqual original bytes mask.data size then (.ok, ⟨original, size, true⟩)
      else (.preconditionFailed, ⟨original, size, false⟩)

/-- `hk_mempatch_write_fn` with its context. -/
abbrev MempatchWrite (ε : Type) := Addr → List Byte → Machine ε → Mutation × Machine ε

/-- `HK_EFFECT_MEMORY_MUTATION`. -/
def effectMemoryMutation : Mask := 1#64 <<< 4

/-- The artifact of a patch. -/
structure MemoryArtifact where
  state : ArtifactState
  effects : Mask
  engineId : StringView
  address : Addr
  size : Nat
  originalBytes : List Byte
  mechanicallyReversible : Bool
  safeToReverseAfterActivation : Bool
deriving DecidableEq

/-- A call of the writer. -/
structure PatchCall where
  address : Addr
  bytes : List Byte
  outcome : Mutation
deriving DecidableEq

/-- What a commit works on: the machine, the records of the sink, if there is one, and the calls of
the writer, which nothing reads. -/
structure PatchState (ε : Type) where
  machine : Machine ε
  sink : Option (List MemoryArtifact)
  calls : List PatchCall

/-- The write of `hk_mempatch_commit`, and its artifact. -/
def writePatch (write : MempatchWrite ε) (address : Addr) (bytes original : List Byte) (size : Nat)
    (s : PatchState ε) : Mutation × PatchState ε :=
  let answer := write address bytes s.machine
  let artifact : MemoryArtifact := {
    state := if answer.1 = .complete then .committed else .partiallyApplied
    effects := effectMemoryMutation
    engineId := ⟨some "memory", 6⟩
    address := address
    size := size
    originalBytes := original
    mechanicallyReversible := true
    safeToReverseAfterActivation := decide (answer.1 = .complete) }
  (answer.1, {
    machine := answer.2
    sink := if answer.1 = .none then s.sink else s.sink.map (· ++ [artifact])
    calls := s.calls ++ [⟨address, bytes, answer.1⟩] })

/-- `hk_mempatch_commit`. -/
def mempatchCommit (address : Addr) (plan : MempatchPlan) (replacement : BytesView)
    (write : Option (MempatchWrite ε)) (s : PatchState ε) : Mutation × PatchState ε :=
  match write, replacement.data with
  | some write, some bytes =>
    if !plan.captured ∨ address = 0 then (.none, s)
    else if replacement.size ≠ plan.size then (.none, s)
    else if s.machine.readBytes address plan.size ≠ plan.original then (.none, s)
    else writePatch write address (bytes.take plan.size) plan.original plan.size s
  | _, _ => (.none, s)

/-! ## The adapter -/

/-- `hk_memory_engine_ctx_t`. -/
structure MemoryEngineCtx (ε : Type) where
  imageBase : Addr
  write : Option (MempatchWrite ε)
  catalog : Option (List ImageEntry)

/-- `prepared_patch_t`. -/
structure PreparedPatch where
  plan : MempatchPlan
  address : Addr

/-- `resolve_address`. -/
def resolveAddress (ctx : MemoryEngineCtx ε) (mem : MemoryTarget) : Addr :=
  if mem.addressIsImageRelative then ctx.imageBase + BitVec.ofNat 64 mem.address
  else BitVec.ofNat 64 mem.address

/-- The diagnosis of `memory_classify`. -/
def MempatchStatus.message : MempatchStatus → String
  | .preconditionFailed => "the region does not hold the bytes the request expected"
  | .tooLarge => "the region is larger than the engine can capture"
  | .invalidArgument | .ok => "invalid memory-patch target"

/-- `HK_MEMORY_DIAG_IMAGE_SCOPE_BASE`. -/
def memoryDiagImageScopeBase : Int := 100

/-- The memory as the image catalog reads it. -/
def bytesOf (m : Machine ε) (p : Ptr) : Byte := m.mem (BitVec.ofNat 64 p)

/-- The image-scope check of `memory_prepare_one_ctx_status`, for targets that are relative to an
image. -/
def memoryScope (ctx : MemoryEngineCtx ε) (mem : MemoryTarget) (m : Machine ε) :
    Option ScopeStatus :=
  if mem.addressIsImageRelative then
    imageScopeCheck (bytesOf m) ctx.catalog (some mem.baseImage) false none
      (resolveAddress ctx mem).toNat
  else some .ok

/-- `memory_prepare_one_ctx_status`; `none` where the catalog is asked for what cannot be read. -/
def memoryPrepareOne (malloc : Machine ε → Bool × Machine ε) (ctx : MemoryEngineCtx ε)
    (spec : HookSpec) (m : Machine ε) :
    Option (PrepareResult × Option PreparedPatch × PrepareDiag × Machine ε) :=
  match spec.target with
  | .memory mem => do
    let address := resolveAddress ctx mem
    let scope ← memoryScope ctx mem m
    if scope ≠ .ok ∧ scope ≠ .noCatalog then
      some (.failed, none, ⟨memoryDiagImageScopeBase + scope.code, some scope.message, 0⟩, m)
    else
      match malloc m with
      | (false, m) => some (.failed, none, ⟨0, some "out of memory", 0⟩, m)
      | (true, m) =>
        match mempatchPrepare m address mem.size mem.expectedBytes mem.expectedMask with
        | (.ok, plan) => some (.ok, some ⟨plan, address⟩, .zero, m)
        | (status, _) => some (.failed, none, ⟨status.code, some status.message, 0⟩, m)
  | _ => some (.failed, none,
      ⟨0, some "memory engine invoked without a writer or with a non-memory target", 0⟩, m)

/-- `memory_commit_one_ctx`; what was prepared is for a memory target. -/
def memoryCommitOne (ctx : MemoryEngineCtx ε) (spec : HookSpec) (prepared : PreparedPatch)
    (s : PatchState ε) : Mutation × PatchState ε :=
  match spec.target with
  | .memory mem =>
    mempatchCommit prepared.address prepared.plan mem.replacementBytes ctx.write s
  | _ => (.none, s)

/-- The memory engine of `hk_runtime_register_platform_engines`: the runtime comes from `calloc`,
and the writer and the catalog are set. -/
def platformMemoryEngine (write : MempatchWrite ε) (catalog : List ImageEntry) :
    MemoryEngineCtx ε where
  imageBase := 0
  write := some write
  catalog := some catalog

/-- A patch, from its preparation in one machine to its commit in a later one. -/
def memoryPatch (malloc : Machine ε → Bool × Machine ε) (ctx : MemoryEngineCtx ε) (spec : HookSpec)
    (m : Machine ε) (s : PatchState ε) : Option (Mutation × PatchState ε) := do
  match ← memoryPrepareOne malloc ctx spec m with
  | (.ok, some prepared, _, _) => some (memoryCommitOne ctx spec prepared s)
  | _ => some (.none, s)

/-! ## When the writer is called -/

/-- The region can be captured, and holds what the request expects. -/
structure Capturable (target : MemoryTarget) (m : Machine ε) (address : Addr) : Prop where
  nonzero : address ≠ 0
  size : 0 < target.size ∧ target.size ≤ mempatchMax
  expected : ∀ bytes, target.expectedBytes.data = some bytes →
    target.expectedBytes.size = target.size ∧
      (target.expectedMask.data.isSome → target.expectedMask.size = target.size) ∧
      maskedEqual (m.readBytes address target.size) bytes target.expectedMask.data target.size

/-- The address is in an image that the selector names, if there are images at all. -/
def InScope (ctx : MemoryEngineCtx ε) (target : MemoryTarget) (m : Machine ε) : Prop :=
  target.addressIsImageRelative = true → ctx.catalog.getD [] = [] ∨
    ∃ e ∈ ctx.catalog.getD [], Selects target.baseImage e ∧
      Contains (bytesOf m) (resolveAddress ctx target).toNat e

/-- Nothing keeps the writer from being called with the replacement. -/
structure Carried (malloc : Machine ε → Bool × Machine ε) (ctx : MemoryEngineCtx ε)
    (target : MemoryTarget) (m : Machine ε) (s : PatchState ε) (bytes : List Byte) : Prop where
  scope : InScope ctx target m
  memory : (malloc m).1 = true
  captured : Capturable target (malloc m).2 (resolveAddress ctx target)
  replacement : target.replacementBytes.data = some bytes
  whole : target.replacementBytes.size = target.size
  unchanged : s.machine.readBytes (resolveAddress ctx target) target.size =
    (malloc m).2.readBytes (resolveAddress ctx target) target.size

variable {malloc : Machine ε → Bool × Machine ε} {ctx : MemoryEngineCtx ε} {target : MemoryTarget}
  {spec : HookSpec} {m : Machine ε} {s : PatchState ε} {bytes : List Byte} {address : Addr}

/-- The check lets an address through exactly if it is in scope. -/
theorem memoryScope_spec (ctx : MemoryEngineCtx ε) (m : Machine ε)
    (hcomplete : Complete target.baseImage) :
    ∃ status, memoryScope ctx target m = some status ∧
      (InScope ctx target m ↔ ¬ (status ≠ .ok ∧ status ≠ .noCatalog)) := by
  rw [memoryScope, InScope]
  by_cases hrelative : target.addressIsImageRelative = true
  · rw [if_pos hrelative]
    simp only [hrelative, forall_const]
    cases hcatalog : ctx.catalog with
    | none => exact ⟨.noCatalog, rfl, by simp⟩
    | some catalog =>
      rw [Option.getD_some]
      by_cases hne : catalog = []
      · subst hne
        exact ⟨.noCatalog, rfl, by simp⟩
      · obtain ⟨status, heq, hverdict⟩ := @imageScopeCheck_spec (bytesOf m) target.baseImage none
          (resolveAddress ctx target).toNat catalog hne hcomplete
        refine ⟨status, heq, ?_⟩
        have huuid : ∀ e, HasUuid none e := fun e ↦ nofun
        cases hverdict with
        | ok passes contains =>
          simp only [ne_eq, not_true, false_and, not_false_iff, iff_true]
          exact .inr ⟨_, passes.1, passes.2.1, contains⟩
        | noMatch hnone =>
          simp only [hne, false_or, ne_eq, reduceCtorEq, not_false_iff, and_self, not_true,
            iff_false]
          rintro ⟨e, he, hsel, -⟩
          exact hnone e he hsel
        | uuidMismatch mem selects hnone => exact absurd ⟨mem, selects, huuid _⟩ (hnone _)
        | unreadableImage _ _ outside =>
          simp only [hne, false_or, ne_eq, reduceCtorEq, not_false_iff, and_self, not_true,
            iff_false]
          rintro ⟨e, he, hsel, hcontains⟩
          exact outside e ⟨he, hsel, huuid e⟩ hcontains
        | addressOutside _ _ outside =>
          simp only [hne, false_or, ne_eq, reduceCtorEq, not_false_iff, and_self, not_true,
            iff_false]
          rintro ⟨e, he, hsel, hcontains⟩
          exact outside e ⟨he, hsel, huuid e⟩ hcontains
  · rw [if_neg hrelative]
    exact ⟨.ok, rfl, by simp [hrelative]⟩

theorem mempatchPrepare_ok (h : Capturable target m address) :
    mempatchPrepare m address target.size target.expectedBytes target.expectedMask =
      (.ok, ⟨m.readBytes address target.size, target.size, true⟩) := by
  obtain ⟨haddress, ⟨hpos, hmax⟩, hexpected⟩ := h
  rw [mempatchPrepare, if_neg (not_or.mpr ⟨haddress, hpos.ne'⟩), if_neg (Nat.not_lt.mpr hmax)]
  cases hdata : target.expectedBytes.data with
  | none => rw [if_neg (by simp)]
  | some bytes =>
    obtain ⟨hsize, hmask, hequal⟩ := hexpected bytes hdata
    rw [if_neg]
    · dsimp only
      rw [if_pos hequal]
    · rintro ⟨-, hne | ⟨hsome, hne⟩⟩
      · exact hne hsize
      · exact hne (hmask hsome)

theorem mempatchPrepare_refuses (h : ¬ Capturable target m address) :
    (mempatchPrepare m address target.size target.expectedBytes target.expectedMask).1 ≠ .ok := by
  rw [mempatchPrepare]
  split
  · nofun
  split
  · nofun
  split
  · nofun
  rename_i haddress hmax hviews
  have hbounds : 0 < target.size ∧ target.size ≤ mempatchMax :=
    ⟨Nat.pos_of_ne_zero (mt Or.inr haddress), Nat.not_lt.mp hmax⟩
  dsimp only
  split
  · rename_i hdata
    refine absurd ⟨mt Or.inl haddress, hbounds, fun bytes hbytes ↦ ?_⟩ h
    rw [hdata] at hbytes
    cases hbytes
  · rename_i bytes hdata
    split
    · rename_i hequal
      refine absurd ⟨mt Or.inl haddress, hbounds, fun bytes' hbytes ↦ ?_⟩ h
      cases hdata.symm.trans hbytes
      rw [hdata] at hviews
      refine ⟨not_not.mp fun hne ↦ hviews ⟨rfl, .inl hne⟩, fun hmask ↦ ?_, hequal⟩
      exact not_not.mp fun hne ↦ hviews ⟨rfl, .inr ⟨hmask, hne⟩⟩
    · nofun

/-- What is prepared: the region as it is then, at the address of the target. -/
theorem memoryPrepareOne_spec (malloc : Machine ε → Bool × Machine ε) (ctx : MemoryEngineCtx ε)
    (m : Machine ε) (hspec : spec.target = .memory target)
    (hcomplete : Complete target.baseImage) :
    ∃ answer, memoryPrepareOne malloc ctx spec m = some answer ∧
      (InScope ctx target m → (malloc m).1 = true →
        Capturable target (malloc m).2 (resolveAddress ctx target) →
        answer = (.ok, some ⟨⟨(malloc m).2.readBytes (resolveAddress ctx target) target.size,
          target.size, true⟩, resolveAddress ctx target⟩, .zero, (malloc m).2)) ∧
      (¬ (InScope ctx target m ∧ (malloc m).1 = true ∧
        Capturable target (malloc m).2 (resolveAddress ctx target)) →
        answer.1 = .failed ∧ answer.2.2.1.errorMessage.isSome) := by
  obtain ⟨status, hscope, hiff⟩ := memoryScope_spec ctx m hcomplete
  rw [memoryPrepareOne, hspec]
  dsimp only
  rw [hscope, Option.bind_eq_bind, Option.bind_some]
  by_cases hin : InScope ctx target m
  · rw [if_neg (hiff.mp hin)]
    obtain ⟨ok, m'⟩ := malloc m
    cases ok with
    | false => exact ⟨_, rfl, nofun, fun _ ↦ ⟨rfl, rfl⟩⟩
    | true =>
      dsimp only
      by_cases hcapturable : Capturable target m' (resolveAddress ctx target)
      · rw [mempatchPrepare_ok hcapturable]
        exact ⟨_, rfl, fun _ _ _ ↦ rfl, fun h ↦ absurd ⟨hin, rfl, hcapturable⟩ h⟩
      · have hrefuses := mempatchPrepare_refuses hcapturable
        generalize mempatchPrepare m' (resolveAddress ctx target) target.size target.expectedBytes
          target.expectedMask = prepared at hrefuses
        obtain ⟨status, plan⟩ := prepared
        cases status with
        | ok => exact absurd rfl hrefuses
        | invalidArgument => exact ⟨_, rfl, fun _ _ h ↦ absurd h hcapturable, fun _ ↦ ⟨rfl, rfl⟩⟩
        | tooLarge => exact ⟨_, rfl, fun _ _ h ↦ absurd h hcapturable, fun _ ↦ ⟨rfl, rfl⟩⟩
        | preconditionFailed =>
          exact ⟨_, rfl, fun _ _ h ↦ absurd h hcapturable, fun _ ↦ ⟨rfl, rfl⟩⟩
  · rw [if_pos (not_not.mp (mt hiff.mpr hin))]
    exact ⟨_, rfl, fun h ↦ absurd h hin, fun _ ↦ ⟨rfl, rfl⟩⟩

/-- **The writer is called once, with the address of the target, or nothing happens at all.** -/
theorem memoryPatch_eq {write : MempatchWrite ε} (hspec : spec.target = .memory target)
    (hcomplete : Complete target.baseImage) (hwrite : ctx.write = some write) :
    (∀ bytes, Carried malloc ctx target m s bytes → memoryPatch malloc ctx spec m s =
      some (writePatch write (resolveAddress ctx target) (bytes.take target.size)
        ((malloc m).2.readBytes (resolveAddress ctx target) target.size) target.size s)) ∧
    ((∀ bytes, ¬ Carried malloc ctx target m s bytes) →
      memoryPatch malloc ctx spec m s = some (.none, s)) := by
  obtain ⟨answer, hprepare, hok, hfailed⟩ := memoryPrepareOne_spec malloc ctx m hspec hcomplete
  rw [memoryPatch, hprepare, Option.bind_eq_bind, Option.bind_some]
  by_cases hprepared : InScope ctx target m ∧ (malloc m).1 = true ∧
      Capturable target (malloc m).2 (resolveAddress ctx target)
  · obtain ⟨hin, hmemory, hcapturable⟩ := hprepared
    rw [hok hin hmemory hcapturable]
    dsimp only
    rw [memoryCommitOne, hspec]
    dsimp only
    unfold mempatchCommit
    rw [hwrite]
    constructor
    · rintro bytes ⟨-, -, -, hreplacement, hwhole, hunchanged⟩
      rw [hreplacement]
      dsimp only
      rw [if_neg (by simpa using hcapturable.nonzero), if_neg (not_not.mpr hwhole),
        if_neg (not_not.mpr hunchanged)]
    · intro hnot
      cases hreplacement : target.replacementBytes.data with
      | none => rfl
      | some bytes =>
        dsimp only
        rw [if_neg (by simpa using hcapturable.nonzero)]
        split
        · rfl
        · rename_i hwhole
          rw [if_pos]
          exact fun hunchanged ↦ hnot bytes ⟨hin, hmemory, hcapturable, hreplacement,
            not_not.mp hwhole, hunchanged⟩
  · obtain ⟨hresult, -⟩ := hfailed hprepared
    refine ⟨fun bytes h ↦ absurd ⟨h.scope, h.memory, h.captured⟩ hprepared, fun _ ↦ ?_⟩
    obtain ⟨result, prepared, diag, m'⟩ := answer
    cases hresult
    rfl

/-! ## Where a patch lands -/

/-- Where an image is loaded. -/
def loadBase (e : ImageEntry) : Addr := BitVec.ofNat 64 e.header

/-- What a target that is relative to an image asks for. -/
structure HitsImage (catalog : List ImageEntry) (target : MemoryTarget) (s : PatchState ε)
    (out : Mutation × PatchState ε) : Prop where
  address : out.1 = .complete → ∃ call, out.2.calls = s.calls ++ [call] ∧
    ∃ e ∈ catalog, Selects target.baseImage e ∧
      call.address = loadBase e + BitVec.ofNat 64 target.address
  refused : (∀ e ∈ catalog, ¬ Selects target.baseImage e) →
    out.1 = .none ∧ out.2.machine.mem = s.machine.mem

/-- **The engine is right about the images, if its context is right about their base.** -/
theorem memoryPatch_hitsImage {write : MempatchWrite ε} {catalog : List ImageEntry}
    {e : ImageEntry} (hspec : spec.target = .memory target)
    (hrelative : target.addressIsImageRelative = true) (hcomplete : Complete target.baseImage)
    (hwrite : ctx.write = some write) (he : e ∈ catalog) (hselects : Selects target.baseImage e)
    (hbase : ctx.imageBase = loadBase e) :
    ∃ out, memoryPatch malloc ctx spec m s = some out ∧ HitsImage catalog target s out := by
  obtain ⟨hcarried, hnot⟩ := @memoryPatch_eq ε malloc ctx target spec m s write
    hspec hcomplete hwrite
  have hrefused : ∀ out : Mutation × PatchState ε, (∀ e ∈ catalog, ¬ Selects target.baseImage e) →
      out.1 = .none ∧ out.2.machine.mem = s.machine.mem := fun _ h ↦ absurd hselects (h e he)
  by_cases h : ∃ bytes, Carried malloc ctx target m s bytes
  · obtain ⟨bytes, h⟩ := h
    refine ⟨_, hcarried bytes h, fun _ ↦ ⟨_, rfl, e, he, hselects, ?_⟩, hrefused _⟩
    change resolveAddress ctx target = _
    rw [resolveAddress, if_pos hrelative, hbase]
  · exact ⟨_, hnot fun bytes hbytes ↦ h ⟨bytes, hbytes⟩, nofun, hrefused _⟩

/-- **The engine as the runtime registers it** takes the offset for an address.  It does what is
asked for exactly if that address is not written, or if an image that is selected is loaded at zero;
and, where there are no images, if the writer refuses. -/
theorem memoryPatch_hitsImage_iff (malloc : Machine ε → Bool × Machine ε) (write : MempatchWrite ε)
    (catalog : List ImageEntry) (spec : HookSpec) (target : MemoryTarget) (m : Machine ε)
    (s : PatchState ε) (hspec : spec.target = .memory target)
    (hrelative : target.addressIsImageRelative = true) (hcomplete : Complete target.baseImage) :
    (∃ out, memoryPatch malloc (platformMemoryEngine write catalog) spec m s = some out ∧
      HitsImage catalog target s out) ↔
    ∀ bytes, Carried malloc (platformMemoryEngine write catalog) target m s bytes →
      let answer := write (BitVec.ofNat 64 target.address) (bytes.take target.size) s.machine
      (answer.1 = .complete → ∃ e ∈ catalog, Selects target.baseImage e ∧ loadBase e = 0) ∧
        (catalog = [] → answer.1 = .none ∧ answer.2.mem = s.machine.mem) := by
  obtain ⟨hcarried, hnot⟩ :=
    @memoryPatch_eq ε malloc (platformMemoryEngine write catalog) target spec
    m s write hspec hcomplete rfl
  have haddress : resolveAddress (platformMemoryEngine write catalog) target =
      BitVec.ofNat 64 target.address := by
    rw [resolveAddress, if_pos hrelative]
    exact BitVec.zero_add _
  rw [haddress] at hcarried
  constructor
  · rintro ⟨out, heq, haddr, hrefused⟩ bytes h
    cases (hcarried bytes h).symm.trans heq
    refine ⟨fun hdone ↦ ?_, fun hnil ↦ hrefused (by simp [hnil])⟩
    obtain ⟨call, hcall, e, he, hselects, hat⟩ := haddr hdone
    refine ⟨e, he, hselects, ?_⟩
    cases List.append_cancel_left hcall
    have hat : BitVec.ofNat 64 target.address = loadBase e + BitVec.ofNat 64 target.address := hat
    exact right_eq_add.mp hat
  · intro h
    by_cases hsome : ∃ bytes, Carried malloc (platformMemoryEngine write catalog) target m s bytes
    · obtain ⟨bytes, hbytes⟩ := hsome
      obtain ⟨hbase, hempty⟩ := h bytes hbytes
      refine ⟨_, hcarried bytes hbytes, fun hdone ↦ ?_, fun hnone ↦ hempty ?_⟩
      · obtain ⟨e, he, hselects, hzero⟩ := hbase hdone
        refine ⟨_, rfl, e, he, hselects, ?_⟩
        rw [hzero]
        exact (BitVec.zero_add _).symm
      · obtain hnil | ⟨e, he, hselects, -⟩ := hbytes.scope hrelative
        · exact hnil
        · exact absurd hselects (hnone e he)
    · exact ⟨_, hnot fun bytes hbytes ↦ hsome ⟨bytes, hbytes⟩, nofun, fun _ ↦ ⟨rfl, rfl⟩⟩

/-! ### An image at 4 GiB, and a region of it -/

/-- The load commands of an image of one segment. -/
def textImage : List Byte :=
  littleEndian 4 mhMagic64 ++ littleEndian 4 0x0100000c ++ littleEndian 4 0 ++ littleEndian 4 2 ++
    littleEndian 4 1 ++ littleEndian 4 72 ++ littleEndian 8 0 ++
    (littleEndian 4 lcSegment64 ++ littleEndian 4 72 ++ littleEndian 16 0x545845545f5f ++
      littleEndian 8 0x100000000 ++ littleEndian 8 0x4000 ++ littleEndian 32 0)

/-- A process with this image in it. -/
def textMachine : Machine Unit where
  mem a := textImage.getD (a - 0x100000000#64).toNat 0
  nextId := 0
  env := ()

/-- Its entry in the catalog. -/
def textEntry : ImageEntry := ⟨none, false, [], 0x100000000, 0, true⟩

/-- A writer that stores the bytes. -/
def storeBytes : MempatchWrite Unit := fun a bytes m ↦ (.complete, m.store a bytes)

/-- Four bytes of zero, at an offset from the main executable. -/
def offsetTarget (offset : Ptr) : MemoryTarget where
  address := offset
  addressIsImageRelative := true
  baseImage := .mk .mainExecutable none [] 0 (some [])
  replacementBytes := ⟨some [1, 2, 3, 4], 4⟩
  expectedBytes := ⟨some [0, 0, 0, 0], 4⟩
  expectedMask := ⟨none, 0⟩
  size := 4
  kind := 0

/-- A request for it. -/
def offsetSpec (offset : Ptr) : HookSpec where
  structSize := sizeofHookSpec
  stableHookId := some "patch"
  target := .memory (offsetTarget offset)
  replacement := 0
  requiredReach := 0
  preferredReach := 0
  originalRequirement := .none
  continuationPolicy := .any
  constraints := 0
  availability := .requiredNow
  role := .mandatory
  domain := none
  commitOrder := 0
  commitAfter := some []

/-- An offset into the image is refused: taken for an address, it is outside. -/
theorem offset_refused : ∃ out, memoryPatch (fun m ↦ (true, m))
    (platformMemoryEngine storeBytes [textEntry]) (offsetSpec 0x1000) textMachine
      ⟨textMachine, none, []⟩ = some out ∧
    HitsImage [textEntry] (offsetTarget 0x1000) ⟨textMachine, none, []⟩ out := by
  refine (memoryPatch_hitsImage_iff _ storeBytes [textEntry] _
    (offsetTarget 0x1000) textMachine _ rfl
    rfl (.leaf (by decide))).mpr fun bytes h ↦ ?_
  obtain ⟨status, hscope, hiff⟩ := @memoryScope_spec _ (offsetTarget 0x1000)
    (platformMemoryEngine storeBytes [textEntry]) textMachine (.leaf (by decide))
  have houtside : memoryScope (platformMemoryEngine storeBytes [textEntry]) (offsetTarget 0x1000)
      textMachine = some .addressOutside := by decide +kernel
  cases hscope.symm.trans houtside
  exact absurd ⟨by decide, by decide⟩ (hiff.mp h.scope)

/-- **A patch that misses the image**: the offset is written to as an address. -/
theorem offset_astray : ∃ out, memoryPatch (fun m ↦ (true, m))
    (platformMemoryEngine storeBytes [textEntry]) (offsetSpec 0x100001000) textMachine
      ⟨textMachine, none, []⟩ = some out ∧
    (out.1, out.2.calls) = (.complete, [⟨0x100001000, [1, 2, 3, 4], .complete⟩]) ∧
    ¬ HitsImage [textEntry] (offsetTarget 0x100001000) ⟨textMachine, none, []⟩ out := by
  have hrun : (memoryPatch (fun m ↦ (true, m)) (platformMemoryEngine storeBytes [textEntry])
      (offsetSpec 0x100001000) textMachine ⟨textMachine, none, []⟩).map
        (fun out ↦ (out.1, out.2.calls)) =
      some (.complete, [⟨0x100001000, [1, 2, 3, 4], .complete⟩]) := by decide +kernel
  obtain ⟨out, hout, heq⟩ := Option.map_eq_some_iff.mp hrun
  refine ⟨out, hout, heq, fun h ↦ ?_⟩
  obtain ⟨hdone, hcalls⟩ := Prod.mk.inj heq
  obtain ⟨call, hcall, e, he, -, hat⟩ := h.address hdone
  rw [hcalls] at hcall
  obtain rfl := List.mem_singleton.mp he
  obtain rfl := List.singleton_inj.mp hcall
  exact absurd hat (by decide)

end MemoryPatch

end HookKit
