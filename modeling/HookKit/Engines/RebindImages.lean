import HookKit.Engines.Rebind
import HookKit.Lib.RoundRobin
import HookKit.Resolvers.CachePatches
import HookKit.Resolvers.ChainedSafety
import HookKit.Resolvers.ImportSlots
import HookKit.Resolvers.MachOSlices
import HookKit.Resolvers.MachOSpan

/-!
# The import metadata of an image

The first phase of `HKRebindEngine.c` in one image, `hk_rebind_prepare_with_lookup`: the metadata is
the patch table of the shared cache, the chains in the file of the image, or the indirect symbols of
the loaded image.

* `loadChains`, `chainedBindCb`, `parseChains` — the chains of a file.
* `prepareFileChains` — the same behind the caches of files and of symbols.
* `dysymtabSlotCb`, `prepareLegacy` — the indirect symbols.
* `rebindPrepareWithLookup` — the choice between the three.

A read outside a buffer has no meaning in C; the functions here answer `none` then.
-/

set_option autoImplicit false

namespace HookKit

open LittleEndian CachePatches Chained

/-! ## What is given -/

/-- `hk_rebind_target_t`, as far as the preparation reads it; a NULL `cache_base` is 0. -/
structure RebindTarget where
  imageBase : UIntPtr
  imageSize : Nat
  slide : UIntPtr
  imagePath : Option CString
  /-- `file_image` and its size. -/
  fileImage : Option (List Byte)
  cacheBase : UIntPtr
  cacheSize : Nat
  /-- `uuid`, if `uuid_present`. -/
  uuid : Option (List Byte)
  includeSharedCacheGot : Bool

/-- What the preparation finds in the process: its memory, what `open`, `fstat` and `mmap` make of a
path, and the range of the shared cache, where dyld tells it. -/
structure RebindEnv where
  mem : UIntPtr → Byte
  file : CString → Option (List Byte)
  dyldSharedCacheRange : Option (UIntPtr × Nat)

/-- The bytes of a range. -/
def readRange (mem : UIntPtr → Byte) (start : UIntPtr) (size : Nat) : List Byte :=
  (List.range size).map fun i ↦ mem (start + BitVec.ofNat 64 i)

@[simp] theorem readRange_length (mem : UIntPtr → Byte) (start : UIntPtr) (size : Nat) :
    (readRange mem start size).length = size := by
  rw [readRange, List.length_map, List.length_range]

/-- `open_file_view`: the seam of the tests is preferred, and an empty file counts as none. -/
def openFileView (env : RebindEnv) (target : RebindTarget) : Option (List Byte) :=
  match target.fileImage.filter (· ≠ []) with
  | some file => some file
  | none => (target.imagePath.bind env.file).filter (· ≠ [])

/-! ## The chains of a file -/

/-- `HK_LC_UUID`. -/
def lcUuid : Nat := 0x1b

/-- `hk_macho_copy_uuid`. -/
def copyUuid (image : List Byte) : Option (Except MachO.MachoStatus (List Byte)) := do
  match ← MachO.findLoadCommand image lcUuid with
  | .error status => some (.error status)
  | .ok (offset, cmdsize) =>
    if cmdsize < 24 then some (.error .malformed)
    else do
      let uuid ← readAt 16 image (offset + 8)
      some (.ok uuid)

/-- `HK_REBIND_MAX_SEGMENTS`. -/
def rebindMaxSegments : Nat := 64

/-- `segment_collect_t`. -/
structure SegmentCollect where
  segments : List MachO.MachoSegment
  overflow : Bool

/-- `collect_segment`. -/
def collectSegment (ctx : SegmentCollect) (index : Nat) (segment : MachO.MachoSegment) :
    Bool × SegmentCollect :=
  if index ≥ rebindMaxSegments then (false, { ctx with overflow := true })
  else (true, { ctx with segments := ctx.segments ++ [segment] })

/-- What is kept of a file: the slice, its fixups, and the mappings of its segments. -/
structure LoadedChains where
  slice : List Byte
  fixups : ChainedFixups
  accepted : Accepted fixups
  mappings : List SegmentMapping

/-- The preferred base: the lowest address of a segment that is not `__PAGEZERO`. -/
def preferredBase (segments : List MachO.MachoSegment) : Nat :=
  segments.foldl (fun preferred segment ↦
    if segment.segname ≠ MachO.pagezeroName ∧ segment.vmaddr < preferred then segment.vmaddr
    else preferred) MachO.uint64Max

/-- The mapping of a segment; `none` for one that does not fit into the slice. -/
def segmentMapping (preferred sliceSize : Nat) (segment : MachO.MachoSegment) :
    Option SegmentMapping :=
  if segment.segname = MachO.pagezeroName then some ⟨0, 0, 0⟩
  else if segment.vmaddr < preferred ∨ segment.fileoff > sliceSize ∨
      segment.filesize > sliceSize - segment.fileoff then none
  else some ⟨segment.vmaddr - preferred, segment.fileoff, segment.filesize⟩

/-- The mappings of all segments. -/
def segmentMappings (preferred sliceSize : Nat) :
    List MachO.MachoSegment → Option (List SegmentMapping)
  | [] => some []
  | segment :: rest => do
    let mapping ← segmentMapping preferred sliceSize segment
    let mappings ← segmentMappings preferred sliceSize rest
    some (mapping :: mappings)

/-- The segments of a slice, and what is loaded with them. -/
def loadSegments (slice : List Byte) (fixups : ChainedFixups) (accepted : Accepted fixups) :
    Option (Except RebindStatus LoadedChains) := do
  let (status, collected) ← MachO.iterateSegments slice collectSegment ⟨[], false⟩
  if status ≠ .ok ∨ collected.overflow ∨ collected.segments = [] then
    some (.error (if collected.overflow then .unsupportedFormat else .malformedImage))
  else
    let preferred := preferredBase collected.segments
    if preferred = MachO.uint64Max then some (.error .malformedImage)
    else
      match segmentMappings preferred slice.length collected.segments with
      | none => some (.error .malformedImage)
      | some mappings => some (.ok ⟨slice, fixups, accepted, mappings⟩)

/-- The fixups of a slice, and what is loaded with them. -/
def loadFixups (slice : List Byte) : Option (Except RebindStatus LoadedChains) := do
  match ← MachO.findChainedFixups slice with
  | .error _ => some (.error .malformedImage)
  | .ok (offset, size) =>
    match h : Chained.parse ((slice.drop offset).take size) with
    | none => none
    | some (.error .unsupportedFormat) | some (.error .unsupportedVersion) =>
      some (.error .unsupportedFormat)
    | some (.error _) => some (.error .malformedImage)
    | some (.ok fixups) => loadSegments slice fixups ⟨_, h⟩

/-- The part of `prepare_file_chains` that loads a file, from the slice for the loaded header on.
The file has to be the one that was loaded: `live` are the header and the load commands in
memory. -/
def loadChains (file live : List Byte) (header : MachO.MachoHeader) :
    Option (Except RebindStatus LoadedChains) := do
  match ← MachO.selectSlice file header.cputype header.cpusubtype with
  | .error .notFound => some (.error .unsupportedFormat)
  | .error _ => some (.error .malformedImage)
  | .ok (offset, size) =>
    let slice := (file.drop offset).take size
    match ← copyUuid live with
    | .error _ => some (.error .malformedImage)
    | .ok liveUuid =>
      match ← copyUuid slice with
      | .error _ => some (.error .malformedImage)
      | .ok fileUuid =>
        if liveUuid ≠ fileUuid then some (.error .malformedImage) else loadFixups slice

/-! ## The binds of a file -/

/-- `INT64_MAX` and `INT64_MIN`. -/
def int64Max : Int := 2 ^ 63 - 1
def int64Min : Int := -2 ^ 63

/-- What `chained_bind_cb` makes of a bind before it looks at the slot. -/
inductive ChainedUse where
  | malformed | other
  | use (use : SiteUse)

/-- The part of `chained_bind_cb` up to the site. -/
def chainedUse (candidates : List CString) (imageBase : UIntPtr) (imageSize : Nat)
    (fixups : ChainedFixups) (bind : ChainedBind) : Option ChainedUse := do
  match ← importAt fixups bind.importOrdinal with
  | .error _ => some .malformed
  | .ok imported => do
    let name ← ImportSlots.terminated (fixups.blob.drop imported.symbolName)
    if !candidates.contains name then some .other
    else if bind.slotImageOffset > imageSize ∨ 8 > imageSize - bind.slotImageOffset then
      some .malformed
    else if bind.addend > 0 ∧ imported.addend > int64Max - bind.addend ∨
        bind.addend < 0 ∧ imported.addend < int64Min - bind.addend then some .malformed
    else
      some (.use {
        address := imageBase + BitVec.ofNat 64 bind.slotImageOffset
        schema := ⟨bind.isAuth, .ofBits bind.key, bind.diversity, bind.addressDiversity⟩
        addend := imported.addend + bind.addend
        weakImport := imported.weakImport })

/-- `chained_ctx_t` and `cache_collect_ctx_t`, less what is given. -/
structure SiteCollect where
  plan : RebindPlan
  overflow : Bool
  malformed : Bool
  pacMismatch : Bool

def SiteCollect.start (plan : RebindPlan) : SiteCollect := ⟨plan, false, false, false⟩

/-- What the callbacks do with the answer of `add_site`. -/
def SiteCollect.note (s : SiteCollect) (added : AddSiteStatus × RebindPlan) : SiteCollect where
  plan := added.2
  overflow := s.overflow || added.1 = .overflow
  malformed := s.malformed || added.1 = .malformed
  pacMismatch := s.pacMismatch || added.1 = .pacMismatch

variable (pac : Pac)

/-- What `chained_bind_cb` does with a bind, and whether the walk goes on. -/
def SiteCollect.take (mem : UIntPtr → Byte) (s : SiteCollect) : ChainedUse → Bool × SiteCollect
  | .malformed => (false, { s with malformed := true })
  | .other => (true, s)
  | .use use =>
    let added := addSite pac mem s.plan use
    (added.1 = .ok, s.note added)

/-- `chained_bind_cb`; there is no context once something was read outside a buffer. -/
def chainedBindCb (mem : UIntPtr → Byte) (candidates : List CString) (imageBase : UIntPtr)
    (imageSize : Nat) (fixups : ChainedFixups) : Visit (Option SiteCollect) := fun s bind ↦
  match s, chainedUse candidates imageBase imageSize fixups bind with
  | some s, some use =>
    let taken := s.take pac mem use
    (taken.1, some taken.2)
  | _, _ => (false, none)

/-- What comes of the binds: the status of the image, and its plan. -/
def SiteCollect.verdict (s : SiteCollect) (chained : ChainedStatus) : RebindStatus :=
  if s.overflow then .tooManySites
  else if s.pacMismatch then .pacMismatch
  else if s.malformed ∨ chained = .malformed then .malformedImage
  else if chained ≠ .ok then .unsupportedFormat
  else if s.plan.sites ≠ [] then .ok else .notFound

/-- The binds of a file are walked, and what they come to. -/
def parseChains (mem : UIntPtr → Byte) (target : RebindTarget) (candidates : List CString)
    (chains : LoadedChains) (plan : RebindPlan) : Option (RebindStatus × RebindPlan) := do
  let (chained, s) ← iterateFileBinds chains.fixups chains.slice chains.mappings
    (chainedBindCb pac mem candidates target.imageBase target.imageSize chains.fixups)
    (some (.start plan))
  let s ← s
  some (s.verdict chained, s.plan)

/-! ## The caches -/

/-- An entry of `g_rebind_file_cache`. -/
structure FileEntry where
  path : CString
  imageBase : UIntPtr
  cputype : Nat
  cpusubtype : Nat
  chains : LoadedChains

/-- An entry of `g_rebind_symbol_cache`. -/
structure SymbolEntry where
  path : CString
  imageBase : UIntPtr
  symbol : CString
  convention : NameConvention
  sites : List SiteUse

/-- `HK_REBIND_FILE_CACHE_SIZE` and `HK_REBIND_SYMBOL_CACHE_SIZE`. -/
def rebindFileCacheSize : Nat := 4
def rebindSymbolCacheSize : Nat := 8

/-- The two caches, and which of the coming allocations succeed. -/
structure RebindCaches where
  files : RoundRobin rebindFileCacheSize FileEntry
  symbols : RoundRobin rebindSymbolCacheSize SymbolEntry
  heap : List Bool

def RebindCaches.empty (heap : List Bool) : RebindCaches := ⟨.empty _ _, .empty _ _, heap⟩

/-- An entry is for the image at a base that was loaded from a path. -/
def FileEntry.isFor (path : CString) (imageBase : UIntPtr) (header : MachO.MachoHeader)
    (entry : FileEntry) : Bool :=
  entry.path = path && entry.imageBase = imageBase && entry.cputype = header.cputype &&
    entry.cpusubtype = header.cpusubtype

/-- An entry is for a symbol of such an image. -/
def SymbolEntry.isFor (path : CString) (imageBase : UIntPtr) (symbol : CString)
    (convention : NameConvention) (entry : SymbolEntry) : Bool :=
  entry.imageBase = imageBase && entry.convention = convention && entry.path = path &&
    entry.symbol = symbol

/-- A site as it is cached. -/
def RebindSite.use (site : RebindSite) : SiteUse :=
  ⟨site.address, site.schema, site.addend, site.weakImport⟩

/-- Publish a file; without memory for its path the slot stays empty. -/
def RebindCaches.publishFile (caches : RebindCaches) (entry : FileEntry) : RebindCaches :=
  let (ok, heap) := allocate caches.heap
  { caches with files := caches.files.put (if ok then some entry else none), heap := heap }

/-- Publish the sites of a symbol: two strings are allocated. -/
def RebindCaches.publishSymbol (caches : RebindCaches) (entry : SymbolEntry) : RebindCaches :=
  let (okPath, heap) := allocate caches.heap
  let (okSymbol, heap) := allocate heap
  { caches with
    symbols := caches.symbols.put (if okPath && okSymbol then some entry else none)
    heap := heap }

/-- Add the sites of a cached symbol. -/
def replaySites (mem : UIntPtr → Byte) : List SiteUse → RebindPlan → RebindStatus × RebindPlan
  | [], plan => (if plan.sites ≠ [] then .ok else .notFound, plan)
  | use :: rest, plan =>
    match addSite pac mem plan use with
    | (.ok, plan) => replaySites mem rest plan
    | (.overflow, plan) => (.tooManySites, plan)
    | (.malformed, plan) => (.malformedImage, plan)
    | (.pacMismatch, plan) => (.pacMismatch, plan)

/-- Where `prepare_file_chains` has the sites or the chains from: the seam of the tests, the sites
of a cached symbol, a cached file, or a file that it has just loaded. -/
inductive ChainsFrom where
  | refused (status : RebindStatus)
  | seam (chains : LoadedChains)
  | symbol (sites : List SiteUse)
  | cached (path : CString) (chains : LoadedChains)
  | loaded (path : CString) (chains : LoadedChains)

/-- The cached sites of the symbol. -/
def RebindCaches.findSymbol (caches : RebindCaches) (target : RebindTarget) (path : CString)
    (symbolName : CString) (convention : NameConvention) : Option SymbolEntry :=
  caches.symbols.find? (·.isFor path target.imageBase symbolName convention)

/-- Open the file of an image and load it. -/
def loadFile (env : RebindEnv) (target : RebindTarget) (header : MachO.MachoHeader) :
    Option (Except RebindStatus LoadedChains) :=
  match openFileView env target with
  | none => some (.error .metadataUnavailable)
  | some file =>
    loadChains file
      (readRange env.mem target.imageBase (MachO.headerSize + header.sizeofcmds)) header

/-- What loading a file comes to. -/
def ChainsFrom.ofLoad (found : LoadedChains → ChainsFrom) :
    Except RebindStatus LoadedChains → ChainsFrom
  | .error status => .refused status
  | .ok chains => found chains

/-- The part of `prepare_file_chains` before the binds are walked. -/
def findChains (env : RebindEnv) (target : RebindTarget) (symbolName : CString)
    (convention : NameConvention) (header : MachO.MachoHeader) (caches : RebindCaches) :
    Option ChainsFrom :=
  match target.fileImage.filter (· ≠ []), target.imagePath with
  | some _, _ | none, none => (loadFile env target header).map (.ofLoad .seam)
  | none, some path =>
    match caches.files.find? (·.isFor path target.imageBase header) with
    | none => (loadFile env target header).map (.ofLoad (.loaded path))
    | some file =>
      -- a symbol is looked up only when its file is cached
      match caches.findSymbol target path symbolName convention with
      | some known => some (.symbol known.sites)
      | none => some (.cached path file.chains)

/-- A verdict that is cached: that there are no sites, too. -/
def RebindStatus.isFound (status : RebindStatus) : Bool := status = .ok || status = .notFound

/-- Publish the sites of a symbol that were found, unless they have been. -/
def RebindCaches.publishFound (caches : RebindCaches) (target : RebindTarget) (path : CString)
    (symbolName : CString) (convention : NameConvention) (answer : RebindStatus × RebindPlan) :
    RebindCaches :=
  if answer.1.isFound && (caches.findSymbol target path symbolName convention).isNone then
    caches.publishSymbol
      ⟨path, target.imageBase, symbolName, convention, answer.2.sites.map RebindSite.use⟩
  else caches

/-- `prepare_file_chains`. -/
def prepareFileChains (env : RebindEnv) (target : RebindTarget) (symbolName : CString)
    (convention : NameConvention) (candidates : List CString) (header : MachO.MachoHeader)
    (plan : RebindPlan) (caches : RebindCaches) :
    Option ((RebindStatus × RebindPlan) × RebindCaches) := do
  match ← findChains env target symbolName convention header caches with
  | .refused status => some ((status, plan), caches)
  | .seam chains => do
    let answer ← parseChains pac env.mem target candidates chains plan
    some (answer, caches)
  | .symbol sites => some (replaySites pac env.mem sites plan, caches)
  | .cached path chains => do
    let answer ← parseChains pac env.mem target candidates chains plan
    some (answer, caches.publishFound target path symbolName convention answer)
  | .loaded path chains => do
    let answer ← parseChains pac env.mem target candidates chains plan
    -- the file is published whatever came of its binds
    let caches := caches.publishFile
      ⟨path, target.imageBase, header.cputype, header.cpusubtype, chains⟩
    some (answer, caches.publishFound target path symbolName convention answer)

/-! ## The indirect symbols -/

/-- `"__auth_got"`. -/
def authGotName : List Byte :=
  [0x5f#8, 0x5f#8, 0x61#8, 0x75#8, 0x74#8, 0x68#8, 0x5f#8, 0x67#8, 0x6f#8, 0x74#8]

/-- The part of `dysymtab_slot_cb` up to the site; the slot of another symbol is none. -/
def slotUse (candidates : List CString) (slide : UIntPtr) (slot : ImportSlots.ImportSlot) :
    Option SiteUse :=
  if candidates.contains slot.symbolName then
    some {
      address := BitVec.ofNat 64 slot.slotVmaddr + slide
      schema := if slot.sectname = authGotName then ⟨true, .ia, 0, true⟩ else .zero
      addend := 0
      weakImport := false }
  else none

/-- `collect_ctx_t`, less what is given. -/
structure SlotCollect where
  plan : RebindPlan
  error : AddSiteStatus

/-- `dysymtab_slot_cb`. -/
def dysymtabSlotCb (mem : UIntPtr → Byte) (candidates : List CString) (slide : UIntPtr)
    (c : SlotCollect) (slot : ImportSlots.ImportSlot) : Bool × SlotCollect :=
  match slotUse candidates slide slot with
  | none => (true, c)
  | some use =>
    let added := addSite pac mem c.plan use
    if added.1 = .ok then (true, { c with plan := added.2 }) else (false, ⟨added.2, added.1⟩)

/-- An entry of a symbol table in memory. -/
def nlistAt (mem : UIntPtr → Byte) (a : UIntPtr) : SymbolTable.Nlist where
  strx := (readLE 4 (readRange mem a 4) 0).getD 0
  type := mem (a + 4)
  sect := (mem (a + 5)).toNat
  value := (readLE 8 (readRange mem (a + 8) 8) 0).getD 0

/-- The symbol table that a view points to; a view after `memset` points to nothing. -/
def tableViewAt (mem : UIntPtr → Byte) : Option MachO.SymbolTableView → SymbolTable.TableView
  | none => ⟨none, none⟩
  | some view =>
    ⟨if view.nlist = 0 then none
      else some ((List.range view.nlistCount).map fun i ↦
        nlistAt mem (view.nlist + BitVec.ofNat 64 (i * MachO.nlistSize))),
    if view.strings = 0 then none else some (readRange mem view.strings view.stringsSize)⟩

/-- The tables that import tables point to. -/
def tablesAt (mem : UIntPtr → Byte) (tables : MachO.ImportTables) : ImportSlots.Tables :=
  let indirect := tables.indirect.filter fun found ↦ found.1 ≠ 0
  let count := (indirect.map fun found ↦ found.2).getD 0 % 2 ^ 32
  { indirect := indirect.map fun found ↦ readRange mem found.1 (count * 4)
    indirectCount := count
    symbols := tableViewAt mem tables.symbols
    counted := by
      intro bytes hbytes
      obtain ⟨found, -, rfl⟩ := Option.map_eq_some_iff.mp hbytes
      rw [readRange_length]
    count_lt := Nat.mod_lt _ (by decide) }

/-- The part of `hk_rebind_prepare_with_lookup` behind the chains: an image without them. -/
def prepareLegacy (mem : UIntPtr → Byte) (target : RebindTarget) (candidates : List CString)
    (image : List Byte) (plan : RebindPlan) : Option (RebindStatus × RebindPlan) := do
  match ← MachO.importTablesFromLoadedImage image target.slide with
  | .error _ => some (.malformedImage, plan)
  | .ok tables =>
    let tables := tablesAt mem tables
    if tables.indirect = none then some (.notFound, plan)
    else do
      let (status, collect) ← ImportSlots.slotsIterate image tables
        (dysymtabSlotCb pac mem candidates target.slide) ⟨plan, .ok⟩
      if collect.error = .overflow then some (.tooManySites, collect.plan)
      else if collect.error = .pacMismatch then some (.pacMismatch, collect.plan)
      else if collect.error = .malformed ∨ status ≠ .ok then some (.malformedImage, collect.plan)
      else some (finalizePlan collect.plan)

/-! ## The shared cache -/

/-- `live_cache_range`: the base, the size, and whether the range cannot change. -/
def liveCacheRange (env : RebindEnv) (target : RebindTarget) : UIntPtr × Nat × Bool :=
  if target.cacheBase ≠ 0 then (target.cacheBase, target.cacheSize, false)
  else
    match env.dyldSharedCacheRange with
    | none => (0, target.cacheSize, false)
    | some (base, size) => (base, size, base ≠ 0 && size ≠ 0)

/-- Whether an image stands in a cache. -/
def inCache (cacheBase : UIntPtr) (cacheSize : Nat) (image : UIntPtr) : Bool :=
  cacheBase ≠ 0 && cacheBase.toNat ≤ image.toNat && image.toNat - cacheBase.toNat < cacheSize

/-- `hk_cache_patch_target_t` for an image. -/
def patchTarget (target : RebindTarget) (range : UIntPtr × Nat × Bool) (headerSize : Nat)
    (path : CString) : PatchTarget where
  cacheBase := range.1.toNat
  cacheSize := range.2.1
  imageHeader := target.imageBase.toNat
  imageHeaderSize := headerSize
  imageSlide := target.slide.toNat
  imagePath := path
  uuid := target.uuid
  includeSharedGot := target.includeSharedCacheGot
  immutableMetadata := range.2.2

/-- A site of the patch table, as it is added. -/
def patchUse (site : PatchSite) : SiteUse where
  address := BitVec.ofNat 64 site.address
  schema := site.schema
  addend := site.addend
  weakImport := site.weakImport

/-- `cache_patch_cb`, over all sites: the reader of the patch table does not heed its answers. -/
def collectPatchSites (mem : UIntPtr → Byte) (sites : List PatchSite) (plan : RebindPlan) :
    SiteCollect :=
  sites.foldl (fun s site ↦ s.note (addSite pac mem s.plan (patchUse site))) (.start plan)

/-- What outlives a preparation: the caches of files and symbols, and what the reader of the patch
table keeps. -/
structure RebindProcess where
  caches : RebindCaches
  indexes : List IndexSlot
  lookup : Option Lookup

/-- `hk_dyld_cache_iterate_symbol_uses_with_lookup` for an image; a NULL path is refused. -/
def patchAnswer (env : RebindEnv) (target : RebindTarget) (range : UIntPtr × Nat × Bool)
    (headerSize : Nat) (symbolName : CString) (convention : NameConvention) (p : RebindProcess) :
    Option (CachePatches.Answer × RebindProcess) :=
  match target.imagePath with
  | none => some (⟨.invalidArgument, []⟩, p)
  | some path => do
    let (answer, lookup, indexes, heap) ←
      iterateSymbolUses (readRange env.mem range.1 range.2.1)
        (patchTarget target range headerSize path) symbolName convention p.lookup p.indexes
        p.caches.heap
    some (answer, ⟨{ p.caches with heap := heap }, indexes, lookup⟩)

/-! ## One image -/

/-- The part of `hk_rebind_prepare_with_lookup` behind the shared cache. -/
def prepareImage (env : RebindEnv) (target : RebindTarget) (symbolName : CString)
    (convention : NameConvention) (candidates : List CString) (header : MachO.MachoHeader)
    (plan : RebindPlan) (p : RebindProcess) :
    Option ((RebindStatus × RebindPlan) × RebindProcess) := do
  let image := readRange env.mem target.imageBase (MachO.headerSize + header.sizeofcmds)
  match ← MachO.findLoadCommand image MachO.lcDyldChainedFixups with
  | .ok (_, cmdsize) =>
    if cmdsize < MachO.linkeditDataCmdSize then some ((.malformedImage, plan), p)
    else do
      let ((status, plan), caches) ← prepareFileChains pac env target symbolName convention
        candidates header plan p.caches
      some (if status = .ok then finalizePlan plan else (status, plan), { p with caches := caches })
  | .error .notFound => do
    let answer ← prepareLegacy pac env.mem target candidates image plan
    some (answer, p)
  | .error _ => some ((.malformedImage, plan), p)

/-- `hk_rebind_prepare_with_lookup`. -/
def rebindPrepareWithLookup (env : RebindEnv) (target : RebindTarget) (symbolName : CString)
    (convention : NameConvention) (p : RebindProcess) :
    Option ((RebindStatus × RebindPlan) × RebindProcess) :=
  if target.imageBase = 0 then some ((.invalidArgument, .empty), p)
  else
    match symbolBuildCandidates symbolName convention with
    | none => some ((.invalidArgument, .empty), p)
    | some candidates => do
      match ← MachO.peekHeader (readRange env.mem target.imageBase MachO.headerSize) with
      | .error _ => some ((.malformedImage, .empty), p)
      | .ok header =>
        let headerSize := MachO.headerSize + header.sizeofcmds
        if target.imageSize < headerSize then some ((.malformedImage, .empty), p)
        else
          let range := liveCacheRange env target
          if inCache range.1 range.2.1 target.imageBase then do
            let (answer, p) ← patchAnswer env target range headerSize symbolName convention p
            let collect := collectPatchSites pac env.mem answer.sites .empty
            if collect.overflow then some ((.tooManySites, collect.plan), p)
            else if collect.pacMismatch then some ((.pacMismatch, collect.plan), p)
            else if collect.malformed then some ((.malformedImage, collect.plan), p)
            else
              match answer.status with
              | .ok => some (finalizePlan collect.plan, p)
              | .notFound => some ((.notFound, collect.plan), p)
              | .scopeUnrepresentable => some ((.scopeUnrepresentable, collect.plan), p)
              | .unsupported => some ((.unsupportedFormat, collect.plan), p)
              -- a cache from before the patch tables
              | .noMetadata =>
                prepareImage pac env target symbolName convention candidates header collect.plan p
              | .notCache | .invalidArgument | .malformed =>
                some ((.malformedImage, collect.plan), p)
          else
            prepareImage pac env target symbolName convention candidates header .empty p

end HookKit
