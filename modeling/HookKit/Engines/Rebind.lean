import HookKit.Core.Engine
import HookKit.Core.PointerAuth
import HookKit.Lib.WordMemory
import HookKit.Lib.GuardedWrites

/-!
# The rebind engine

`HKRebindEngine.c` and its adapter `HKRebindVtable.c`: the slots through which the images import a
symbol are made to hold the replacement.

* `addSite`, `finalizePlan`, `rebindPrepare` — the first phase in one image: what the slots hold.
* `collectImage`, `rebindPrepareBundle` — the first phase over the images of a catalog.
* `rebindCommit`, `rebindCommitOne` — the second phase: every slot is read again and written.

What the import metadata names is the argument of the first phase, `ImportUses`.  The writer is
arbitrary, and has a state of its own; its calls are written down as they happen.
-/

set_option autoImplicit false

namespace HookKit

open WordMemory

/-! ## Sites -/

/-- `hk_rebind_status_t`. -/
inductive RebindStatus where
  | ok | notFound | invalidArgument | malformedImage | tooManySites | metadataUnavailable
  | pacMismatch | unsupportedFormat | scopeUnrepresentable
deriving DecidableEq, Repr

/-- The value of a status as an error code. -/
def RebindStatus.code : RebindStatus → Int
  | .ok => 0
  | .notFound => 1
  | .invalidArgument => 2
  | .malformedImage => 3
  | .tooManySites => 4
  | .metadataUnavailable => 5
  | .pacMismatch => 6
  | .unsupportedFormat => 7
  | .scopeUnrepresentable => 8

/-- `add_site_status_t`. -/
inductive AddSiteStatus where
  | ok | overflow | malformed | pacMismatch
deriving DecidableEq, Repr

/-- `HK_REBIND_MAX_SITES`. -/
def rebindMaxSites : Nat := 32

/-- `hk_rebind_site_t`, less where it was found. -/
structure RebindSite where
  address : UIntPtr
  original : UIntPtr
  callableOriginal : UIntPtr
  addend : Int
  schema : PacSchema
  weakImport : Bool
deriving DecidableEq, Repr

/-- `hk_rebind_plan_t`: the array of sites is of a fixed size. -/
structure RebindPlan where
  sites : List RebindSite
  fits : sites.length ≤ rebindMaxSites
  originalsAgree : Bool
  original : UIntPtr
deriving DecidableEq

/-- A plan after `memset`. -/
def RebindPlan.empty : RebindPlan := ⟨[], Nat.zero_le _, false, 0⟩

/-- `checked_adjust`. -/
def checkedAdjust (value : UIntPtr) (addend : Int) (add : Bool) : Option UIntPtr :=
  let magnitude := addend.natAbs
  if decide (0 ≤ addend) = add then
    if magnitude > sizeMax - value.toNat then none else some (value + BitVec.ofNat 64 magnitude)
  else if magnitude > value.toNat then none
  else some (value - BitVec.ofNat 64 magnitude)

/-- A use of the symbol, as the import metadata describes it. -/
structure SiteUse where
  address : UIntPtr
  schema : PacSchema
  addend : Int
  weakImport : Bool
deriving DecidableEq, Repr

variable (pac : Pac)

/-- `add_site`. -/
def addSite (mem : UIntPtr → Byte) (plan : RebindPlan) (use : SiteUse) :
    AddSiteStatus × RebindPlan :=
  match plan.sites.find? fun existing ↦ existing.address = use.address with
  | some existing =>
    (if existing.schema = use.schema ∧ existing.addend = use.addend then .ok else .malformed, plan)
  | none =>
    if hfull : plan.sites.length ≥ rebindMaxSites then (.overflow, plan)
    else
      let old := readWord mem use.address
      if old = 0 ∧ (!use.weakImport || use.addend ≠ 0) then (.malformed, plan)
      else if old ≠ 0 ∧ !pac.slotMatches old use.schema use.address then (.pacMismatch, plan)
      else
        match checkedAdjust (if old = 0 then 0 else pac.stripSlot old use.schema) use.addend
            false with
        | none => (.malformed, plan)
        | some base =>
          (.ok, { plan with
            sites := plan.sites ++
              [⟨use.address, old, pac.makeCallable base, use.addend, use.schema,
              use.weakImport⟩]
            fits := by
              rw [List.length_append]
              exact Nat.lt_of_not_ge hfull })

/-- The callbacks of the readers of metadata: every use of the symbol is added.  The answers that
are not `ADD_SITE_OK` are collected; the reader may stop at the first of them, or go on. -/
def addSites (mem : UIntPtr → Byte) (stops : Bool) :
    List SiteUse → RebindPlan → List AddSiteStatus × RebindPlan
  | [], plan => ([], plan)
  | use :: rest, plan =>
    let added := addSite pac mem plan use
    if added.1 = .ok then addSites mem stops rest added.2
    else if stops then ([added.1], added.2)
    else
      let others := addSites mem stops rest added.2
      (added.1 :: others.1, others.2)

/-- `finalize_plan`. -/
def finalizePlan (plan : RebindPlan) : RebindStatus × RebindPlan :=
  match plan.sites with
  | [] => (.notFound, plan)
  | first :: rest =>
    (.ok, { plan with
      original := first.callableOriginal
      originalsAgree := rest.all fun site ↦ site.callableOriginal = first.callableOriginal })

/-- What the import metadata of an image names: the uses of the symbol, in the order in which they
are met, whether the reader of that metadata heeds the visitor's answer (the reader of the shared
cache's patch table does not), and how reading ends. -/
structure ImportUses where
  uses : List SiteUse
  stops : Bool
  ended : RebindStatus
  quiet : ended = .notFound → uses = []

/-- `hk_rebind_prepare_with_lookup`, from the metadata on. -/
def rebindPrepare (mem : UIntPtr → Byte) (found : ImportUses) : RebindStatus × RebindPlan :=
  let added := addSites pac mem found.stops found.uses .empty
  if .overflow ∈ added.1 then (.tooManySites, added.2)
  else if .pacMismatch ∈ added.1 then (.pacMismatch, added.2)
  else if .malformed ∈ added.1 then (.malformedImage, added.2)
  else if found.ended ≠ .ok then (found.ended, added.2)
  else finalizePlan added.2

/-! ## Writing the slots -/

/-- The memory of the process and whatever the writer keeps for itself. -/
structure SlotWorld (σ : Type) where
  mem : UIntPtr → Byte
  own : σ

/-- `hk_rebind_write_fn` with its context. -/
abbrev RebindWrite (σ : Type) := UIntPtr → UIntPtr → SlotWorld σ → Mutation × SlotWorld σ

/-- `HK_EFFECT_IMPORT_MUTATION`. -/
def effectImportMutation : Mask := 1#64 <<< 1

/-- The artifact of a slot: what `record_artifact` fills in. -/
structure ImportSlotArtifact where
  state : ArtifactState
  effects : Mask
  importSlotAddress : UIntPtr
  originalPointer : UIntPtr
  replacementPointer : UIntPtr
  safeToReverseAfterActivation : Bool
deriving DecidableEq, Repr

/-- What the engine reads of `hk_artifact_sink_t` and writes into it. -/
structure RebindSink where
  requiredPredecessor : Option UIntPtr
  records : List ImportSlotArtifact
  publishedOriginal : UIntPtr

/-- A call of the writer, with the site it was made for. -/
abbrev SlotCall := GuardedWrites.Call RebindSite UIntPtr Mutation

/-- What a commit works on.  Nothing reads the calls. -/
structure RebindState (σ : Type) where
  world : SlotWorld σ
  sink : Option RebindSink
  calls : List SlotCall

/-- `hk_rebind_replacement_for_site`. -/
def replacementForSite (site : RebindSite) (replacement : UIntPtr) : Option UIntPtr :=
  (checkedAdjust (pac.stripCode replacement) site.addend true).map fun adjusted ↦
    pac.signSlot adjusted site.schema site.address

/-- The values of all the sites, unless one of them has none. -/
def replacementsForSites (replacement : UIntPtr) :
    List RebindSite → Option (List (RebindSite × UIntPtr))
  | [] => some []
  | site :: rest =>
    match replacementForSite pac site replacement, replacementsForSites replacement rest with
    | some value, some values => some ((site, value) :: values)
    | _, _ => none

/-- The artifact of a call. -/
def slotArtifact (call : SlotCall) : ImportSlotArtifact where
  state := if call.outcome = .complete then .committed else .partiallyApplied
  effects := effectImportMutation
  importSlotAddress := call.cell.address
  originalPointer := call.cell.original
  replacementPointer := call.value
  safeToReverseAfterActivation := decide (call.outcome = .complete)

/-- `record_artifact`, where the outcome asks for it. -/
def recordArtifact (sink : Option RebindSink) (call : SlotCall) : Option RebindSink :=
  if call.outcome = .none then sink
  else sink.map fun sink ↦ { sink with records := sink.records ++ [slotArtifact call] }

variable {σ : Type}

/-- The loop of `hk_rebind_commit`: the outcome, and how many slots were written completely. -/
def writeSites (write : RebindWrite σ) :
    List (RebindSite × UIntPtr) → Nat → RebindState σ → (Mutation × Nat) × RebindState σ
  | [], written, s => ((.complete, written), s)
  | (site, value) :: rest, written, s =>
    if readWord s.world.mem site.address ≠ site.original then
      ((if written = 0 then .none else .partly, written), s)
    else
      let answer := write site.address value s.world
      let call : SlotCall := ⟨site, value, readWord s.world.mem site.address, answer.1⟩
      let s : RebindState σ := ⟨answer.2, recordArtifact s.sink call, s.calls ++ [call]⟩
      match answer.1 with
      | .complete => writeSites write rest (written + 1) s
      | .none => ((if written = 0 then .none else .partly, written), s)
      | .partly => ((.partly, written), s)
      | .unknown => ((.unknown, written), s)

/-- The predecessor the core asks for is the one every site has. -/
def predecessorMatches (plan : RebindPlan) (sink : Option RebindSink) : Bool :=
  match sink.bind RebindSink.requiredPredecessor with
  | none => true
  | some predecessor => plan.sites.all fun site ↦ site.callableOriginal = predecessor

/-- `hk_rebind_commit`: the outcome and `*out_written`. -/
def rebindCommit (write : Option (RebindWrite σ)) (plan : RebindPlan) (replacement : UIntPtr)
    (s : RebindState σ) : (Mutation × Nat) × RebindState σ :=
  match write with
  | none => ((.none, 0), s)
  | some write =>
    if plan.sites = [] then ((.none, 0), s)
    else
      match replacementsForSites pac replacement plan.sites with
      | none => ((.none, 0), s)
      | some values =>
        if !predecessorMatches plan s.sink then ((.none, 0), s)
        else writeSites write values 0 s

/-! ## The adapter -/

/-- `rebind_bundle_entry_t`: of the target it keeps, the commit uses the writer. -/
structure RebindBundleEntry (σ : Type) where
  write : Option (RebindWrite σ)
  plan : RebindPlan

/-- `rebind_bundle_t`. -/
structure RebindBundle (σ : Type) where
  entries : List (RebindBundleEntry σ)
  originalsAgree : Bool
  original : UIntPtr

/-- `rebind_bundle_create`. -/
def RebindBundle.create : RebindBundle σ := ⟨[], true, 0⟩

/-- Whether a slot is in the bundle already. -/
def RebindBundle.contains (bundle : RebindBundle σ) (address : UIntPtr) : Bool :=
  bundle.entries.any fun entry ↦ entry.plan.sites.any fun site ↦ site.address = address

/-- `rebind_collect_image`; an error ends the walk over the images. -/
def collectImage (mem : UIntPtr → Byte) (write : Option (RebindWrite σ)) (bundle : RebindBundle σ)
    (found : ImportUses) : Except RebindStatus (RebindBundle σ) :=
  match rebindPrepare pac mem found with
  | (.notFound, _) => .ok bundle
  | (.ok, plan) =>
    let kept := plan.sites.filter fun site ↦ !bundle.contains site.address
    if kept = [] then .ok bundle
    else .ok {
      entries := bundle.entries ++ [⟨write, { plan with
        sites := kept
        fits := (List.length_filter_le _ _).trans plan.fits }⟩]
      originalsAgree := bundle.originalsAgree && plan.originalsAgree &&
        (bundle.entries.isEmpty || bundle.original = plan.original)
      original := if bundle.entries.isEmpty then plan.original else bundle.original }
  | (status, _) => .error status

/-- `hk_image_catalog_match` with that callback. -/
def collectImages (mem : UIntPtr → Byte) (write : Option (RebindWrite σ)) :
    List ImportUses → RebindBundle σ → Except RebindStatus (RebindBundle σ)
  | [], bundle => .ok bundle
  | found :: rest, bundle =>
    match collectImage pac mem write bundle found with
    | .ok bundle => collectImages mem write rest bundle
    | .error status => .error status

/-- The messages of `rebind_classify`. -/
def RebindStatus.message : RebindStatus → String
  | .notFound => "the image imports no such symbol"
  | .malformedImage => "the image's import metadata is structurally invalid"
  | .tooManySites => "more import slots for this symbol than the engine can record"
  | .metadataUnavailable => "authoritative on-disk import metadata is unavailable"
  | .pacMismatch => "an authenticated import slot does not match its declared PAC schema"
  | .unsupportedFormat => "the image uses an unsupported chained-fixup or cache-patch format"
  | .scopeUnrepresentable => "shared-cache GOT uses cannot represent the requested caller scope"
  | .invalidArgument | .ok => "invalid rebind target"

/-- `rebind_classify` of a refusal. -/
def rebindClassify (status : RebindStatus) : PrepareDiag :=
  { PrepareDiag.zero with errorCode := status.code, errorMessage := some status.message }

/-- `rebind_prepare_one_ctx_status` where the images come from the catalog. -/
def rebindPrepareBundle (mem : UIntPtr → Byte) (write : Option (RebindWrite σ))
    (requirement : OriginalRequirement) (images : List ImportUses) :
    Except PrepareDiag (RebindBundle σ) :=
  match collectImages pac mem write images .create with
  | .error status => .error (rebindClassify status)
  | .ok bundle =>
    if bundle.entries = [] then .error (rebindClassify .notFound)
    else if requirement ≠ .none ∧ (!bundle.originalsAgree || bundle.original = 0) then
      .error { PrepareDiag.zero with errorMessage := some "rebind sites have no single original" }
    else .ok bundle

/-- The loop of `rebind_commit_one_ctx` over the images; the count of the slots written so far is a
`uint32_t`. -/
def commitEntries (replacement : UIntPtr) :
    List (RebindBundleEntry σ) → Nat → RebindState σ → Mutation × RebindState σ
  | [], _, s => (.complete, s)
  | entry :: rest, totalWritten, s =>
    let answer := rebindCommit pac entry.write entry.plan replacement s
    let totalWritten := (totalWritten + answer.1.2) % 2 ^ 32
    match answer.1.1 with
    | .complete => commitEntries replacement rest totalWritten answer.2
    | .unknown => (.unknown, answer.2)
    | .partly => (.partly, answer.2)
    | .none => (if totalWritten ≠ 0 then .partly else .none, answer.2)

/-- What a preparation hands to the commit: of all the images of the catalog, or of the image the
engine's context points at. -/
inductive RebindPrepared (σ : Type) where
  | bundle (bundle : RebindBundle σ)
  | plan (plan : RebindPlan)

/-- The images a preparation hands over. -/
def RebindPrepared.entries (write : Option (RebindWrite σ)) :
    RebindPrepared σ → List (RebindBundleEntry σ)
  | .bundle b => b.entries
  | .plan p => [⟨write, p⟩]

/-- Publish the original, if there is a sink and a single original. -/
def publishOriginal (sink : Option RebindSink) (agree : Bool) (original : UIntPtr) :
    Option RebindSink :=
  if agree then sink.map fun sink ↦ { sink with publishedOriginal := original } else sink

/-- `rebind_commit_one_ctx`; the writer is the context's. -/
def rebindCommitOne (write : Option (RebindWrite σ)) (replacement : UIntPtr)
    (prepared : RebindPrepared σ) (s : RebindState σ) : Mutation × RebindState σ :=
  match prepared with
  | .bundle bundle =>
    match commitEntries pac replacement bundle.entries 0 s with
    | (.complete, s) =>
      (.complete, { s with sink := publishOriginal s.sink bundle.originalsAgree bundle.original })
    | (state, s) => (state, s)
  | .plan plan =>
    match rebindCommit pac write plan replacement s with
    | ((.complete, _), s) =>
      (.complete, { s with
        sink := publishOriginal s.sink (!plan.sites.isEmpty && plan.originalsAgree) plan.original })
    | ((state, _), s) => (state, s)

end HookKit
