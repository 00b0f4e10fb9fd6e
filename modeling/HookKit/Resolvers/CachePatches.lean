import HookKit.Core.PointerAuth
import HookKit.Resolvers.MachO
import Mathlib.Data.List.Lex

/-!
# The patch tables of the shared cache

`HKDyldCachePatches.c`: the places at which an image of dyld's shared cache uses a symbol, as the
patch tables of the cache list them.

* `openCache` — the checks of the entry point, up to the patch tables.
* `parseV1`, `parseV2V4` — the tables; from version 2 on a completed lookup or the index of the
  process may stand in for the scan.
* `iterateSymbolUses` — the entry point.
* `Process` — what outlives a query: the indices, and the lookups that are in use.

A read outside the bytes it belongs to has no meaning; the functions here answer `none` then.  Reads
of the cache have to lie inside the cache, and reads of a patch table inside the region that the
header declares for them.
-/

set_option autoImplicit false

namespace HookKit.CachePatches

open LittleEndian MachO

/-! ## Data -/

/-- `hk_cache_patch_status_t`. -/
inductive CachePatchStatus where
  | ok | notCache | noMetadata | notFound | invalidArgument | malformed | unsupported
  | scopeUnrepresentable
deriving DecidableEq, Repr

/-- `hk_symbol_name_convention_t`. -/
inductive NameConvention where
  | c | machoExact | cxxMangled | swiftMangled
deriving DecidableEq, Repr

/-- A C string: its bytes up to the NUL. -/
abbrev CString := List Byte

/-- `strcmp(a, b) < 0`. -/
def strLess (a b : CString) : Bool := a.map BitVec.toNat < b.map BitVec.toNat

/-- `hk_cache_patch_target_t`, as far as the parsers look at it; addresses are numbers below
`2 ^ 64`. -/
structure PatchImage where
  cacheBase : Nat
  cacheSize : Nat
  imageHeader : Nat
  imageHeaderSize : Nat
  imageSlide : Nat
  imagePath : CString
  /-- `uuid`, if `uuid_present`. -/
  uuid : Option (List Byte)
  includeSharedGot : Bool

/-- `hk_cache_patch_target_t`: whether the cache is known not to change decides about the index. -/
structure PatchTarget extends PatchImage where
  immutableMetadata : Bool

/-- `hk_cache_patch_site_t`. -/
structure PatchSite where
  address : Nat
  schema : PacSchema
  addend : Nat
  weakImport : Bool
  sharedGot : Bool
deriving DecidableEq, Repr

/-- `cache_view_t`; the patch region is given by its offset from the base. -/
structure CacheView where
  base : Nat
  size : Nat
  unslidBase : Nat
  patch : Nat
  patchSize : Nat
deriving DecidableEq, Repr

/-- A view, with the bytes that are mapped at its base. -/
structure Mapped where
  bytes : List Byte
  view : CacheView

/-- `cache_export_match_t`. -/
structure ExportMatch where
  definingImage : Nat
  exportIndex : Nat
deriving DecidableEq, Repr

/-- `struct hk_cache_patch_lookup`; before the first scan there is no view. -/
structure Lookup where
  symbol : CString
  convention : NameConvention
  view : Option CacheView
  version : Nat
  matched : List ExportMatch
  capacity : Nat
  complete : Bool
  allocationFailed : Bool

/-- `cache_index_entry_t`; the name is borrowed, so it is given by its position in the cache. -/
structure IndexEntry where
  name : Nat
  definingImage : Nat
  exportIndex : Nat
deriving DecidableEq, Repr

/-- A slot of `g_cache_index_slots`. -/
structure IndexSlot where
  view : CacheView
  version : Nat
  entries : List IndexEntry

/-- `HK_CACHE_INDEX_SLOTS`. -/
def indexSlots : Nat := 4

/-! ## Reading -/

/-- A number in a patch table; the region declared by the header bounds the read. -/
def Mapped.read (m : Mapped) (count position : Nat) : Option Nat :=
  if m.view.patch ≤ position ∧ position + count ≤ m.view.patch + m.view.patchSize then
    readLE count m.bytes position
  else none

/-- `range_at`. -/
def rangeAt (size offset count stride : Nat) : Option Nat :=
  if offset > size ∨ count > uint64Max / (if stride = 0 then 1 else stride) then none
  else if count * stride > size - offset then none
  else some offset

/-- `patch_array`: where a table begins. -/
def patchArray (view : CacheView) (address count stride : Nat) : Option Nat :=
  if address < view.unslidBase ∨ address - view.unslidBase > view.size then none
  else
    match rangeAt view.size (address - view.unslidBase) count stride with
    | none => none
    | some start =>
      if start ≥ view.patch ∧ start - view.patch ≤ view.patchSize ∧
          count * stride ≤ view.patchSize - (start - view.patch) then some start
      else none

/-- The string at a position, if a NUL stands among the next `left` bytes. -/
def scanString (read : Nat → Option Nat) : Nat → Nat → Option (Option CString)
  | 0, _ => some none
  | left + 1, position => do
    let byte ← read position
    if byte = 0 then some (some [])
    else do
      match ← scanString read left (position + 1) with
      | none => some none
      | some rest => some (some (BitVec.ofNat 8 byte :: rest))

/-- `bounded_string`. -/
def boundedString (read : Nat → Option Nat) (pool size offset : Nat) : Option (Option CString) :=
  if offset ≥ size then some none else scanString read (size - offset) (pool + offset)

/-! ## Loops -/

/-- How a part of the work ends: with a status, and what has been collected. -/
abbrev Ended (σ : Type) := CachePatchStatus × σ

variable {σ : Type}

/-- Go on after a part that was fine. -/
def andThen (part : Option (Ended σ)) (next : σ → Option (Ended σ)) : Option (Ended σ) :=
  match part with
  | some (.ok, s) => next s
  | ended => ended

/-- A loop that a status other than `ok` ends. -/
def forEach {α : Type} (body : α → σ → Option (Ended σ)) : List α → σ → Option (Ended σ)
  | [], s => some (.ok, s)
  | a :: rest, s => andThen (body a s) (forEach body rest)

/-! ## Names -/

/-- `HK_RESOLVE_MAX_NAME`. -/
def resolveMaxName : Nat := 1024

/-- `hk_symbol_build_candidates`: the name as given and, except for an exact name, with the linker's
underscore in front. -/
def symbolBuildCandidates (name : CString) (convention : NameConvention) : Option (List CString) :=
  if name.length = 0 then none
  else if name.length > resolveMaxName then none
  else if convention = .machoExact then some [name]
  else some [name, 0x5f#8 :: name]

/-! ## Emitting locations -/

/-- `schema_v1_v3`. -/
def schemaV1V3 (bits : Nat) : PacSchema where
  authenticated := bits >>> 12 &&& 1 ≠ 0
  addressDiversity := bits >>> 13 &&& 1 ≠ 0
  key := .ofBits (bits >>> 14 &&& 3)
  diversity := bits >>> 16

/-- `addend_v1_v3`. -/
def addendV1V3 (bits : Nat) : Nat := bits >>> 7 &&& 0x1f

/-- `schema_v4`. -/
def schemaV4 (bits : Nat) : PacSchema :=
  if bits &&& 1 ≠ 0 then {
    authenticated := true
    addressDiversity := bits >>> 14 &&& 1 ≠ 0
    key := if bits >>> 15 &&& 1 ≠ 0 then .da else .ia
    diversity := bits >>> 16 }
  else .zero

/-- `addend_v4`. -/
def addendV4 (bits : Nat) : Nat := if bits &&& 1 ≠ 0 then bits >>> 9 &&& 0x1f else bits >>> 9

/-- `weak_v4`. -/
def weakV4 (bits : Nat) : Bool := bits >>> 8 &&& 1 ≠ 0

/-- `writable_segment_contains`: the context tells whether the address has been found. -/
def writableSegmentContains (address slide : Nat) (found : Bool) (_index : Nat)
    (segment : MachoSegment) : Bool × Bool :=
  if segment.initprot &&& 2 = 0 ∨ segment.vmsize = 0 ∨ segment.vmsize > uint64Max then (true, found)
  else
    let start := (segment.vmaddr + slide) % 2 ^ 64
    if segment.vmsize > uint64Max - start then (true, found)
    else if address ≥ start ∧ address < start + segment.vmsize then (false, true)
    else (true, found)

/-- Where the importer's header stands in the cache. -/
def PatchImage.headerOffset (target : PatchImage) : Nat := target.imageHeader - target.cacheBase

/-- The importer's header lies inside the cache, with all its load commands. -/
def PatchImage.HeaderInside (target : PatchImage) : Prop :=
  target.headerOffset + target.imageHeaderSize ≤ target.cacheSize

instance (target : PatchImage) : Decidable target.HeaderInside :=
  inferInstanceAs (Decidable (_ ≤ _))

/-- `belongs_to_importer`; the importer's header is a part of the cache. -/
def belongsToImporter (target : PatchImage) (m : Mapped) (address : Nat) : Option Bool := do
  let header ← readAt target.imageHeaderSize m.bytes target.headerOffset
  match ← iterateSegments header (writableSegmentContains address target.imageSlide) false with
  | (.ok, found) => some found
  | _ => some false

/-- Whether a site may be emitted: shared pointers belong to nobody. -/
def siteBelongs (target : PatchImage) (m : Mapped) (sharedGot : Bool) (address : Nat) :
    Option Bool :=
  if sharedGot then some true else belongsToImporter target m address

/-- The sites a query has emitted, and `*found`. -/
structure Emitted where
  sites : List PatchSite
  found : Bool

/-- `emit_location`, and the assignment to `*found` behind every call; what the visitor answers does
not matter. -/
def emitLocation (target : PatchImage) (m : Mapped) (offset bits : Nat) (v4 sharedGot : Bool)
    (s : Emitted) : Option (Ended Emitted) :=
  if offset > m.view.size - 8 then some (.malformed, s)
  else do
    let site : PatchSite := {
      address := (m.view.base + offset) % 2 ^ 64
      schema := if v4 then schemaV4 bits else schemaV1V3 bits
      addend := if v4 then addendV4 bits else addendV1V3 bits
      weakImport := v4 && weakV4 bits
      sharedGot := sharedGot }
    let belongs ← siteBelongs target m sharedGot site.address
    if !belongs then some (.malformed, s)
    else some (.ok, { s with sites := s.sites ++ [site], found := true })

/-! ## Version 1 -/

/-- A table: where it begins, and how many rows it has. -/
structure Table where
  start : Nat
  count : Nat

/-- A table whose address and count stand at an offset of the patch region; the inner `none` is a
table that does not lie inside the region. -/
def loadTable (m : Mapped) (offset stride : Nat) : Option (Option Table) := do
  let count ← m.read 8 (m.view.patch + offset + 8)
  let address ← m.read 8 (m.view.patch + offset)
  some ((patchArray m.view address count stride).map fun start ↦ ⟨start, count⟩)

/-- A string of a pool of names. -/
def Table.string (names : Table) (m : Mapped) (offset : Nat) : Option (Option CString) :=
  boundedString (m.read 1) names.start names.count offset

/-- The tables of `parse_v1`. -/
structure TableV1 where
  images : Table
  exports : Table
  locations : Table
  names : Table

/-- The first part of `parse_v1`. -/
def loadV1 (m : Mapped) : Option (Option TableV1) :=
  if m.view.patchSize < 64 then some none
  else do
    let images ← loadTable m 0 8
    let exports ← loadTable m 16 16
    let locations ← loadTable m 32 16
    let names ← loadTable m 48 1
    match images, exports, locations, names with
    | some images, some exports, some locations, some names =>
      some (some ⟨images, exports, locations, names⟩)
    | _, _, _, _ => some none

/-- The loop of `parse_v1` over the locations of an export, at row `loc`. -/
def locationV1 (target : PatchImage) (m : Mapped) (t : TableV1) (loc : Nat) (s : Emitted) :
    Option (Ended Emitted) := do
  let row := t.locations.start + loc * 16
  let offset ← m.read 4 row
  if !(← belongsToImporter target m ((m.view.base + offset) % 2 ^ 64)) then some (.ok, s)
  else do
    let bits ← m.read 4 (row + 8)
    emitLocation target m offset bits false false s

/-- The loop of `parse_v1` over the exports of an image, at row `export`. -/
def exportV1 (target : PatchImage) (m : Mapped) (t : TableV1) (candidates : List CString)
    (exportIndex : Nat) (s : Emitted) : Option (Ended Emitted) := do
  let row := t.exports.start + exportIndex * 16
  let nameOffset ← m.read 4 (row + 12)
  match ← t.names.string m nameOffset with
  | none => some (.malformed, s)
  | some name =>
    if name ∉ candidates then some (.ok, s)
    else do
      let locFirst ← m.read 4 (row + 4)
      let locCount ← m.read 4 (row + 8)
      if locFirst + locCount > t.locations.count then some (.malformed, s)
      else
        forEach (fun k ↦ locationV1 target m t ((locFirst + k) % 2 ^ 32)) (List.range locCount) s

/-- The loop of `parse_v1` over the images. -/
def imageV1 (target : PatchImage) (m : Mapped) (t : TableV1) (candidates : List CString)
    (i : Nat) (s : Emitted) : Option (Ended Emitted) := do
  let first ← m.read 4 (t.images.start + i * 8)
  let count ← m.read 4 (t.images.start + i * 8 + 4)
  if first + count > t.exports.count then some (.malformed, s)
  else
    forEach (fun j ↦ exportV1 target m t candidates ((first + j) % 2 ^ 32)) (List.range count) s

/-- `parse_v1`. -/
def parseV1 (target : PatchImage) (m : Mapped) (candidates : List CString) (s : Emitted) :
    Option (Ended Emitted) := do
  match ← loadV1 m with
  | none => some (.malformed, s)
  | some t => forEach (imageV1 target m t candidates) (List.range t.images.count) s

/-! ## Versions 2 to 4 -/

/-- `table_v2_t`; before version 3 the tables of shared pointers are empty. -/
structure TableV2 where
  images : Table
  imageExports : Table
  clients : Table
  clientExports : Table
  locations : Table
  names : Table
  gotClients : Table
  gotExports : Table
  gotLocations : Table

/-- A table that there is from version 3 on. -/
def loadGotTable (m : Mapped) (version offset stride : Nat) : Option (Option Table) :=
  if version ≥ 3 then loadTable m offset stride else some (some ⟨0, 0⟩)

/-- `load_v2`. -/
def loadV2 (m : Mapped) (version : Nat) : Option (Option TableV2) :=
  if m.view.patchSize < (if version ≥ 3 then 152 else 104) then some none
  else do
    if (← m.read 4 (m.view.patch + 4)) ≠ 0 then some none
    else do
      let images ← loadTable m 8 16
      let imageExports ← loadTable m 24 8
      let clients ← loadTable m 40 12
      let clientExports ← loadTable m 56 12
      let locations ← loadTable m 72 8
      let names ← loadTable m 88 1
      let gotClients ← loadGotTable m version 104 8
      let gotExports ← loadGotTable m version 120 12
      let gotLocations ← loadGotTable m version 136 16
      match images, imageExports, clients, clientExports, locations, names, gotClients, gotExports,
          gotLocations with
      | some images, some imageExports, some clients, some clientExports,
          some locations, some names,
          some gotClients, some gotExports, some gotLocations =>
        some (some ⟨images, imageExports, clients, clientExports, locations, names, gotClients,
          gotExports, gotLocations⟩)
      | _, _, _, _, _, _, _, _, _ => some none

/-- A row of the table of images. -/
structure ImageRow where
  clientFirst : Nat
  clientCount : Nat
  exportFirst : Nat
  exportCount : Nat

def TableV2.image (t : TableV2) (m : Mapped) (i : Nat) : Option ImageRow := do
  let row := t.images.start + i * 16
  let clientFirst ← m.read 4 row
  let clientCount ← m.read 4 (row + 4)
  let exportFirst ← m.read 4 (row + 8)
  let exportCount ← m.read 4 (row + 12)
  some ⟨clientFirst, clientCount, exportFirst, exportCount⟩

/-- The row names rows that exist. -/
def TableV2.Holds (t : TableV2) (row : ImageRow) : Prop :=
  row.clientFirst + row.clientCount ≤ t.clients.count ∧
    row.exportFirst + row.exportCount ≤ t.imageExports.count

instance (t : TableV2) (row : ImageRow) : Decidable (t.Holds row) :=
  inferInstanceAs (Decidable (_ ∧ _))

/-- The name's offset and the kind of an export. -/
def TableV2.nameAndKind (t : TableV2) (m : Mapped) (exportIndex : Nat) : Option Nat :=
  m.read 4 (t.imageExports.start + exportIndex * 8 + 4)

/-- What the functions below know about the query. -/
structure Query where
  target : PatchImage
  version : Nat
  importerIndex : Nat
  candidates : List CString

/-- The loop of `emit_client_export` over the locations, at row `loc`. -/
def clientLocation (q : Query) (m : Mapped) (t : TableV2) (loc : Nat) (s : Emitted) :
    Option (Ended Emitted) := do
  let row := t.locations.start + loc * 8
  let offset ← m.read 4 row
  let imageOffset := (q.target.imageHeader + 2 ^ 64 - m.view.base) % 2 ^ 64
  if imageOffset > m.view.size ∨ offset > m.view.size - imageOffset then some (.malformed, s)
  else do
    let bits ← m.read 4 (row + 4)
    emitLocation q.target m (imageOffset + offset) bits (q.version = 4) false s

/-- `emit_client_export`, for the row `ce`. -/
def emitClientExport (q : Query) (m : Mapped) (t : TableV2) (globalExport ce : Nat) (s : Emitted) :
    Option (Ended Emitted) := do
  let row := t.clientExports.start + ce * 12
  if (← m.read 4 row) ≠ globalExport then some (.ok, s)
  else do
    let first ← m.read 4 (row + 4)
    let count ← m.read 4 (row + 8)
    if first + count > t.locations.count then some (.malformed, s)
    else forEach (fun i ↦ clientLocation q m t ((first + i) % 2 ^ 32)) (List.range count) s

/-- The loop of `emit_got_export` over the locations, at row `loc`. -/
def gotLocation (q : Query) (m : Mapped) (t : TableV2) (loc : Nat) (s : Emitted) :
    Option (Ended Emitted) := do
  let row := t.gotLocations.start + loc * 16
  let offset ← m.read 8 row
  let bits ← m.read 4 (row + 8)
  emitLocation q.target m offset bits (q.version = 4) true s

/-- `emit_got_export`, for the row `ge`. -/
def emitGotExport (q : Query) (m : Mapped) (t : TableV2) (globalExport ge : Nat) (s : Emitted) :
    Option (Ended Emitted) := do
  let row := t.gotExports.start + ge * 12
  if (← m.read 4 row) ≠ globalExport then some (.ok, s)
  else do
    let first ← m.read 4 (row + 4)
    let count ← m.read 4 (row + 8)
    if first + count > t.gotLocations.count then some (.malformed, s)
    else if count ≠ 0 ∧ !q.target.includeSharedGot then some (.scopeUnrepresentable, s)
    else forEach (fun i ↦ gotLocation q m t ((first + i) % 2 ^ 32)) (List.range count) s

/-- The loop of `emit_export_uses` over the clients of an image, at row `c`. -/
def emitClient (q : Query) (m : Mapped) (t : TableV2) (globalExport c : Nat) (s : Emitted) :
    Option (Ended Emitted) := do
  let row := t.clients.start + c * 12
  let ceFirst ← m.read 4 (row + 4)
  let ceCount ← m.read 4 (row + 8)
  if ceFirst + ceCount > t.clientExports.count then some (.malformed, s)
  else do
    if (← m.read 4 row) ≠ q.importerIndex then some (.ok, s)
    else
      forEach (fun ce ↦ emitClientExport q m t globalExport ((ceFirst + ce) % 2 ^ 32))
        (List.range ceCount) s

/-- The second part of `emit_export_uses`: the pointers all images share. -/
def emitSharedGot (q : Query) (m : Mapped) (t : TableV2) (defining globalExport : Nat)
    (s : Emitted) : Option (Ended Emitted) :=
  if q.version < 3 then some (.ok, s)
  else do
    let row := t.gotClients.start + defining * 8
    let geFirst ← m.read 4 row
    let geCount ← m.read 4 (row + 4)
    if geFirst + geCount > t.gotExports.count then some (.malformed, s)
    else
      forEach (fun ge ↦ emitGotExport q m t globalExport ((geFirst + ge) % 2 ^ 32))
        (List.range geCount) s

/-- `emit_export_uses`. -/
def emitExportUses (q : Query) (m : Mapped) (t : TableV2) (defining globalExport : Nat)
    (s : Emitted) : Option (Ended Emitted) := do
  let row := t.images.start + defining * 16
  let clientFirst ← m.read 4 row
  let clientCount ← m.read 4 (row + 4)
  if clientFirst + clientCount > t.clients.count then some (.malformed, s)
  else
    andThen
      (forEach (fun c ↦ emitClient q m t globalExport ((clientFirst + c) % 2 ^ 32))
        (List.range clientCount) s)
      (emitSharedGot q m t defining globalExport)

/-! ## The scan -/

/-- One allocation: which of the coming ones succeed; all of them do once the list is used up. -/
def allocate : List Bool → Bool × List Bool
  | [] => (true, [])
  | ok :: rest => (ok, rest)

/-- `lookup_begin`. -/
def Lookup.begin (l : Lookup) (view : CacheView) (version : Nat) : Lookup :=
  if l.view = some view ∧ l.version = version ∧ l.complete then l
  else { l with matched := [], view := some view, version := version, complete := false }

/-- `lookup_append`, when there is a lookup. -/
def Lookup.append (l : Lookup) (defining exportIndex : Nat) (heap : List Bool) :
    Lookup × List Bool :=
  if l.allocationFailed then (l, heap)
  else
    let grown := { l with matched := l.matched ++ [⟨defining, exportIndex⟩] }
    if l.matched.length ≠ l.capacity then (grown, heap)
    else
      let capacity := if l.capacity ≠ 0 then l.capacity * 2 % 2 ^ 64 else 4
      if capacity > l.capacity ∧ capacity ≤ uint64Max / 16 then
        match allocate heap with
        | (true, heap) => ({ grown with capacity := capacity }, heap)
        | (false, heap) => ({ l with allocationFailed := true }, heap)
      else ({ l with allocationFailed := true }, heap)

/-- The state of a scan: what has been emitted, the lookup that is being filled, and the heap. -/
structure Scan where
  emitted : Emitted
  lookup : Option Lookup
  heap : List Bool

/-- `lookup_append`. -/
def Scan.append (s : Scan) (defining exportIndex : Nat) : Scan :=
  match s.lookup with
  | none => s
  | some l =>
    let (l, heap) := l.append defining exportIndex s.heap
    { s with lookup := some l, heap := heap }

/-- Emitting leaves the lookup alone. -/
def Scan.emit (emission : Emitted → Option (Ended Emitted)) (s : Scan) : Option (Ended Scan) := do
  let (status, emitted) ← emission s.emitted
  some (status, { s with emitted := emitted })

/-- What happens with an export that matches: its kind has to be supported. -/
def useExport (q : Query) (m : Mapped) (t : TableV2) (defining globalExport nameAndKind : Nat)
    (s : Emitted) : Option (Ended Emitted) :=
  if nameAndKind >>> 28 ≠ 0 then some (.unsupported, s)
  else emitExportUses q m t defining globalExport s

/-- The loop of `parse_v2_v4` over the exports of an image. -/
def scanExport (q : Query) (m : Mapped) (t : TableV2) (defining : Nat) (row : ImageRow) (e : Nat)
    (s : Scan) : Option (Ended Scan) := do
  let globalExport := (row.exportFirst + e) % 2 ^ 32
  let nameAndKind ← t.nameAndKind m globalExport
  match ← t.names.string m (nameAndKind &&& 0x0fffffff) with
  | none => some (.malformed, s)
  | some name =>
    if name ∉ q.candidates then some (.ok, s)
    else
      (s.append defining globalExport).emit (useExport q m t defining globalExport nameAndKind)

/-- The loop of `parse_v2_v4` over the images. -/
def scanDefinition (q : Query) (m : Mapped) (t : TableV2) (defining : Nat) (s : Scan) :
    Option (Ended Scan) := do
  let row ← t.image m defining
  if ¬ t.Holds row then some (.malformed, s)
  else forEach (scanExport q m t defining row) (List.range row.exportCount) s

/-! ## Replaying a lookup -/

/-- The loop over the exports of an image, when the matches are known; it also answers with the
matches that are left. -/
def replayExports (q : Query) (m : Mapped) (t : TableV2) (defining : Nat) (row : ImageRow) :
    List ExportMatch → Nat → Emitted → Option (CachePatchStatus × Emitted × List ExportMatch)
  | [], _, s => some (.ok, s, [])
  | found :: rest, e, s =>
    if e ≥ row.exportCount ∨ found.definingImage ≠ defining then some (.ok, s, found :: rest)
    else do
      let e := (found.exportIndex + 2 ^ 32 - row.exportFirst) % 2 ^ 32
      let globalExport := (row.exportFirst + e) % 2 ^ 32
      let nameAndKind ← t.nameAndKind m globalExport
      match ← useExport q m t defining globalExport nameAndKind s with
      | (.ok, s) => replayExports q m t defining row rest ((e + 1) % 2 ^ 32) s
      | (status, s) => some (status, s, rest)

/-- The loop over the images, when the matches are known; the first argument counts the passes that
are left. -/
def replayDefinitions (q : Query) (m : Mapped) (t : TableV2) :
    Nat → Nat → List ExportMatch → Emitted → Option (Ended Emitted)
  | 0, _, _, _ => none
  | passes + 1, defining, matched, s =>
    if defining ≥ t.images.count then some (.ok, s)
    else
      match matched with
      | [] => some (.ok, s)
      | found :: rest => do
        let row ← t.image m found.definingImage
        if ¬ t.Holds row then some (.malformed, s)
        else do
          match ← replayExports q m t found.definingImage row (found :: rest) 0 s with
          | (.ok, s, left) => replayDefinitions q m t passes (found.definingImage + 1) left s
          | (status, s, _) => some (status, s)

/-! ## The index of the process -/

/-- `cache_index_entry_less`. -/
def IndexEntry.less (a b : IndexEntry) : Bool :=
  if a.definingImage ≠ b.definingImage then a.definingImage < b.definingImage
  else a.exportIndex < b.exportIndex

/-- `cache_index_entry_compare(a, b) < 0`, for entries and their names. -/
def namedLess (a b : CString × IndexEntry) : Bool :=
  if a.1 ≠ b.1 then strLess a.1 b.1 else a.2.less b.2

/-- The first loop of `cache_index_build`: whether every row is in order, and how many exports there
are in all of them. -/
def checkRows (m : Mapped) (t : TableV2) : List Nat → Nat → Option (Option Nat)
  | [], capacity => some (some capacity)
  | defining :: rest, capacity => do
    let row ← t.image m defining
    if ¬ t.Holds row ∨ capacity > uint64Max - row.exportCount then some none
    else checkRows m t rest (capacity + row.exportCount)

/-- An export as the index records it, with its name. -/
def indexExport (m : Mapped) (t : TableV2) (defining : Nat) (row : ImageRow) (e : Nat) :
    Option (Option (CString × IndexEntry)) := do
  let globalExport := (row.exportFirst + e) % 2 ^ 32
  let nameAndKind ← t.nameAndKind m globalExport
  match ← t.names.string m (nameAndKind &&& 0x0fffffff) with
  | none => some none
  | some name =>
    some (some (name, ⟨t.names.start + (nameAndKind &&& 0x0fffffff), defining, globalExport⟩))

/-- Everything that is collected along a list; nothing if one element fails. -/
def collect {α β : Type} (f : α → Option (Option β)) : List α → Option (Option (List β))
  | [] => some (some [])
  | a :: rest => do
    match ← f a with
    | none => some none
    | some b =>
      match ← collect f rest with
      | none => some none
      | some bs => some (some (b :: bs))

/-- The exports of an image. -/
def indexDefinition (m : Mapped) (t : TableV2) (defining : Nat) :
    Option (Option (List (CString × IndexEntry))) := do
  let row ← t.image m defining
  collect (indexExport m t defining row) (List.range row.exportCount)

/-- `UINT32_MAX`. -/
def uint32Max : Nat := 2 ^ 32 - 1

/-- The checks of `cache_index_build` on the tables. -/
def TableV2.indexable (t : TableV2) (version : Nat) : Bool :=
  t.images.count ≠ 0 && t.images.count ≤ uint32Max &&
    !(version ≥ 3 && t.gotClients.count ≠ t.images.count) && t.imageExports.count ≤ uint32Max

/-- The entries in the order in which they are found, sorted. -/
def sortEntries (entries : List (CString × IndexEntry)) : List IndexEntry :=
  (entries.mergeSort fun a b ↦ !namedLess b a).map Prod.snd

/-- `cache_index_build`. -/
def cacheIndexBuild (m : Mapped) (version : Nat) (heap : List Bool) :
    Option (Option (List IndexEntry) × List Bool) := do
  match ← loadV2 m version with
  | none => some (none, heap)
  | some t =>
    if !t.indexable version then some (none, heap)
    else
      match ← checkRows m t (List.range t.images.count) 0 with
      | none => some (none, heap)
      | some capacity =>
        if capacity > uint64Max / 16 then some (none, heap)
        else
          match if capacity = 0 then (true, heap) else allocate heap with
          | (false, heap) => some (none, heap)
          | (true, heap) =>
            match ← collect (indexDefinition m t) (List.range t.images.count) with
            | none => some (none, heap)
            | some entries => some (some (sortEntries entries.flatten), heap)

/-- `cache_index_acquire`. -/
def cacheIndexAcquire (m : Mapped) (version : Nat) (slots : List IndexSlot) (heap : List Bool) :
    Option (Option (List IndexEntry) × List IndexSlot × List Bool) :=
  match slots.find? fun slot ↦ slot.version = version && slot.view = m.view with
  | some slot => some (some slot.entries, slots, heap)
  | none =>
    if slots.length < indexSlots then do
      match ← cacheIndexBuild m version heap with
      | (some entries, heap) => some (some entries, slots ++ [⟨m.view, version, entries⟩], heap)
      | (none, heap) => some (none, slots, heap)
    else some (none, slots, heap)

/-- The string at a position of the patch region; every entry of an index has one. -/
def Mapped.cString (m : Mapped) (position : Nat) : Option CString := do
  (← scanString (m.read 1) (m.view.patch + m.view.patchSize - position) position)

/-- The loop of `cache_index_lower_bound`; the first argument counts the passes that are left. -/
def lowerBound (m : Mapped) (entries : List IndexEntry) (name : CString) :
    Nat → Nat → Nat → Option Nat
  | 0, _, _ => none
  | passes + 1, low, high =>
    if low < high then do
      let mid := low + (high - low) / 2
      let entry ← entries[mid]?
      let text ← m.cString entry.name
      if strLess text name then lowerBound m entries name passes (mid + 1) high
      else lowerBound m entries name passes low mid
    else some low

/-- The entries at the front that have a name. -/
def entriesNamed (m : Mapped) (name : CString) : List IndexEntry → Option (List IndexEntry)
  | [] => some []
  | entry :: rest => do
    let text ← m.cString entry.name
    if text = name then do
      let named ← entriesNamed m name rest
      some (entry :: named)
    else some []

/-- The run of a candidate: the entries that have its name. -/
def candidateRun (m : Mapped) (entries : List IndexEntry) (name : CString) :
    Option (List IndexEntry) := do
  let low ← lowerBound m entries name (entries.length + 1) 0 entries.length
  entriesNamed m name (entries.drop low)

/-- The runs of the candidates, merged in the order of the traversal; the first of two equal entries
comes from the run in front. -/
def mergedRuns (m : Mapped) (entries : List IndexEntry) : List CString → Option (List IndexEntry)
  | [] => some []
  | name :: names => do
    let run ← candidateRun m entries name
    let others ← mergedRuns m entries names
    some (run.merge others fun a b ↦ !b.less a)

/-- The exports among some, each under its name, that a query is about; without an index they are
what the scan finds, and with one the merged runs. -/
def matching (candidates : List CString) (entries : List (CString × IndexEntry)) :
    List IndexEntry :=
  (entries.filter fun entry ↦ entry.1 ∈ candidates).map Prod.snd

/-- One pass of the replay of an index. -/
def replayEntry (q : Query) (m : Mapped) (t : TableV2) (entry : IndexEntry) (s : Scan) :
    Option (Ended Scan) := do
  let nameAndKind ← t.nameAndKind m entry.exportIndex
  if nameAndKind >>> 28 ≠ 0 then some (.unsupported, s)
  else
    (s.append entry.definingImage entry.exportIndex).emit
      (emitExportUses q m t entry.definingImage entry.exportIndex)

/-! ## The parser of versions 2 to 4 -/

/-- The lookup is complete when the whole scan has gone through. -/
def Scan.finish (s : Scan) : Scan :=
  { s with lookup := s.lookup.map fun l ↦
      if l.allocationFailed then l else { l with complete := true } }

/-- `parse_v2_v4`, behind its checks. -/
def parseTables (q : Query) (m : Mapped) (t : TableV2) (index : Option (List IndexEntry))
    (s : Scan) : Option (Ended Scan) :=
  match s.lookup.filter Lookup.complete, index with
  | some l, _ => s.emit (replayDefinitions q m t (l.matched.length + 2) 0 l.matched)
  | none, some entries => do
    let merged ← mergedRuns m entries q.candidates
    forEach (replayEntry q m t) merged s
  | none, none => forEach (scanDefinition q m t) (List.range t.images.count) s

/-- `parse_v2_v4`. -/
def parseV2V4 (q : Query) (m : Mapped) (index : Option (List IndexEntry)) (s : Scan) :
    Option (Ended Scan) := do
  match ← loadV2 m q.version with
  | none => some (.malformed, s)
  | some t =>
    if t.images.count = 0 ∨ q.importerIndex ≥ t.images.count ∨
        q.version ≥ 3 ∧ t.gotClients.count ≠ t.images.count then some (.malformed, s)
    else
      -- a lookup that has once run out of memory is not used any more
      let used := (s.lookup.filter fun l ↦ !l.allocationFailed).map (·.begin m.view q.version)
      match ← parseTables q m t index { s with lookup := used } with
      | (.ok, s') => some (.ok, { s'.finish with lookup := s'.finish.lookup.or s.lookup })
      | (status, s') => some (status, { s' with lookup := s'.lookup.or s.lookup })

/-! ## The header of the cache -/

/-- The search for the importer among the images of the cache. -/
def findImporter (target : PatchImage) (bytes : List Byte) (unslidBase images : Nat) :
    List Nat → Option (Except CachePatchStatus Nat)
  | [] => some (.error .notCache)
  | i :: rest => do
    let address ← readLE 8 bytes (images + i * 32)
    if address < unslidBase ∨ address - unslidBase ≥ target.cacheSize ∨
        (target.cacheBase + (address - unslidBase)) % 2 ^ 64 ≠ target.imageHeader then
      findImporter target bytes unslidBase images rest
    else do
      let pathOffset ← readLE 4 bytes (images + i * 32 + 24)
      match ← boundedString (readLE 1 bytes) 0 target.cacheSize pathOffset with
      | none => some (.error .malformed)
      | some path => if path ≠ target.imagePath then some (.error .malformed) else some (.ok i)

/-- Whether the first text that begins at an address has the UUID. -/
def findText (bytes uuid : List Byte) (texts imageUnslid : Nat) : Nat → Nat → Option Bool
  | 0, _ => some false
  | left + 1, i => do
    let address ← readLE 8 bytes (texts + i * 32 + 16)
    if address = imageUnslid then do
      let found ← readAt 16 bytes (texts + i * 32)
      some (found = uuid)
    else findText bytes uuid texts imageUnslid left (i + 1)

/-- The check of the importer's UUID, when there is one. -/
def checkUuid (target : PatchImage) (bytes : List Byte) (mappingOffset images importer : Nat) :
    Option Bool :=
  match target.uuid with
  | none => some true
  | some uuid =>
    if mappingOffset < 152 then some false
    else do
      let textOffset ← readLE 8 bytes 136
      let textCount ← readLE 8 bytes 144
      match rangeAt target.cacheSize textOffset textCount 32 with
      | none => some false
      | some texts => do
        let imageUnslid ← readLE 8 bytes (images + importer * 32)
        findText bytes uuid texts imageUnslid textCount 0

/-- What the checks of the entry point find out. -/
structure Opened where
  view : CacheView
  mappingOffset : Nat
  imagesCount : Nat
  importerIndex : Nat

/-- The patch region that the header declares. -/
def openPatch (target : PatchImage) (bytes : List Byte)
    (unslidBase mappingOffset imagesCount importer : Nat) :
    Option (Except CachePatchStatus Opened) := do
  let patchAddr ← readLE 8 bytes 152
  let patchSize ← readLE 8 bytes 160
  if patchAddr = 0 ∨ patchSize = 0 then
    if mappingOffset ≥ 224 ∧ target.cacheSize < 224 then some (.error .malformed)
    else if mappingOffset ≥ 224 then do
      let flags ← readLE 4 bytes 220
      some (.error (if flags &&& 2 ^ 11 ≠ 0 then .malformed else .noMetadata))
    else some (.error .noMetadata)
  else if patchAddr < unslidBase ∨ patchAddr - unslidBase > target.cacheSize ∨
      patchSize > target.cacheSize - (patchAddr - unslidBase) then some (.error .malformed)
  else
    some (.ok {
      view := ⟨target.cacheBase, target.cacheSize, unslidBase, patchAddr - unslidBase, patchSize⟩
      mappingOffset := mappingOffset
      imagesCount := imagesCount
      importerIndex := importer })

/-- Where the images of the cache are listed, and how many there are. -/
def imagesRange (target : PatchImage) (bytes : List Byte) (mappingOffset : Nat) :
    Option (Except CachePatchStatus (Nat × Nat)) := do
  let offsetOld ← readLE 4 bytes 24
  let countOld ← readLE 4 bytes 28
  if mappingOffset ≥ 456 then
    if target.cacheSize < 456 then some (.error .malformed)
    else do
      let imagesOffset ← readLE 4 bytes 448
      let imagesCount ← readLE 4 bytes 452
      some (.ok (imagesOffset, imagesCount))
  else some (.ok (offsetOld, countOld))

/-- The checks of `hk_dyld_cache_iterate_symbol_uses_with_lookup`, up to the patch tables. -/
def openCache (target : PatchImage) (bytes : List Byte) :
    Option (Except CachePatchStatus Opened) :=
  if target.cacheBase = 0 ∨ target.imageHeader = 0 ∨ target.cacheSize < 168 then
    some (.error .invalidArgument)
  else if target.cacheSize > uint64Max - target.cacheBase ∨ target.imageHeader < target.cacheBase ∨
      target.imageHeader - target.cacheBase ≥ target.cacheSize then some (.error .notCache)
  else do
    let mappingOffset ← readLE 4 bytes 16
    let mappingCount ← readLE 4 bytes 20
    if mappingCount = 0 then some (.error .malformed)
    else
      match rangeAt target.cacheSize mappingOffset mappingCount 32 with
      | none => some (.error .malformed)
      | some mappings => do
        let fileOffset ← readLE 8 bytes (mappings + 16)
        if fileOffset ≠ 0 then some (.error .malformed)
        else do
          let unslidBase ← readLE 8 bytes mappings
          if target.imageSlide ≠ (target.cacheBase + 2 ^ 64 - unslidBase) % 2 ^ 64 then
            some (.error .malformed)
          else do
            match ← imagesRange target bytes mappingOffset with
            | .error status => some (.error status)
            | .ok (imagesOffset, imagesCount) =>
              match rangeAt target.cacheSize imagesOffset imagesCount 32 with
              | none => some (.error .malformed)
              | some images => do
                match ← findImporter target bytes unslidBase images (List.range imagesCount) with
                | .error status => some (.error status)
                | .ok importer =>
                  if !(← checkUuid target bytes mappingOffset images importer) then
                    some (.error .malformed)
                  else openPatch target bytes unslidBase mappingOffset imagesCount importer

/-! ## The entry point -/

/-- The version of the patch tables; before `swiftOptsSize` became a part of the header there was
only one. -/
def patchVersion (m : Mapped) (mappingOffset : Nat) : Option Nat :=
  if mappingOffset ≤ 384 then some 1 else m.read 4 m.view.patch

/-- The index for a query, where one may be used: a lookup that is complete needs none. -/
def queryIndex (target : PatchTarget) (m : Mapped) (version : Nat) (slots : List IndexSlot)
    (s : Scan) : Option (Option (List IndexEntry) × List IndexSlot × List Bool) :=
  let complete := s.lookup.any fun l ↦ l.complete && l.version = version && l.view = some m.view
  if target.immutableMetadata ∧ !complete then cacheIndexAcquire m version slots s.heap
  else some (none, slots, s.heap)

/-- The parser for a version. -/
def parseVersion (target : PatchTarget) (m : Mapped) (version importer : Nat)
    (candidates : List CString) (slots : List IndexSlot) (s : Scan) :
    Option (Ended Scan × List IndexSlot) :=
  if version = 1 then do
    let ended ← s.emit (parseV1 target.toPatchImage m candidates)
    some (ended, slots)
  else do
    let (index, slots, heap) ← queryIndex target m version slots s
    let ended ← parseV2V4 ⟨target.toPatchImage, version, importer, candidates⟩ m index
      { s with heap := heap }
    some (ended, slots)

/-- What is answered in the end; after an error the lookup has to scan again. -/
def close (ended : Ended Scan) : Ended Scan :=
  match ended with
  | (.ok, s) => (if s.emitted.found then .ok else .notFound, s)
  | (status, s) =>
    (status, { s with lookup := s.lookup.map fun l ↦ { l with complete := false } })

/-- The rest of `hk_dyld_cache_iterate_symbol_uses_with_lookup`. -/
def queryTables (target : PatchTarget) (m : Mapped) (opened : Opened) (candidates : List CString)
    (slots : List IndexSlot) (s : Scan) : Option (Ended Scan × List IndexSlot) := do
  let version ← patchVersion m opened.mappingOffset
  if m.view.patchSize < 24 then some ((.malformed, s), slots)
  else do
    let patchImageCount ← m.read 8 (m.view.patch + if version = 1 then 8 else 16)
    if patchImageCount ≠ opened.imagesCount then some ((.malformed, s), slots)
    else if version = 0 ∨ version > 4 then some ((.unsupported, s), slots)
    else do
      let (ended, slots) ← parseVersion target m version opened.importerIndex candidates slots s
      some (close ended, slots)

/-- What a query answers: the status, and the sites the visitor has been shown. -/
structure Answer where
  status : CachePatchStatus
  sites : List PatchSite
deriving DecidableEq, Repr

/-- `hk_dyld_cache_iterate_symbol_uses_with_lookup`, with the bytes that are mapped at the cache. -/
def iterateSymbolUses (bytes : List Byte) (target : PatchTarget) (symbolName : CString)
    (convention : NameConvention) (lookup : Option Lookup) (slots : List IndexSlot)
    (heap : List Bool) : Option (Answer × Option Lookup × List IndexSlot × List Bool) := do
  let used := lookup.filter fun l ↦ l.convention = convention && l.symbol = symbolName
  match ← openCache target.toPatchImage bytes with
  | .error status => some (⟨status, []⟩, lookup, slots, heap)
  | .ok opened =>
    match symbolBuildCandidates symbolName convention with
    | none => some (⟨.invalidArgument, []⟩, lookup, slots, heap)
    | some candidates => do
      let ((status, s), slots) ← queryTables target ⟨bytes, opened.view⟩ opened candidates slots
        ⟨⟨[], false⟩, used, heap⟩
      some (⟨status, s.emitted.sites⟩, s.lookup.or lookup, slots, s.heap)

/-! ## Histories -/

/-- The memory of the process: the bytes of a range.  They do not change. -/
structure Memory where
  read : Nat → Nat → List Byte
  length : ∀ base size, (read base size).length = size

/-- What outlives a query. -/
structure Process where
  slots : List IndexSlot
  lookups : List Lookup
  heap : List Bool

/-- Before the first query. -/
def Process.initial (heap : List Bool) : Process := ⟨[], [], heap⟩

/-- What can happen: `hk_cache_patch_lookup_create`, `hk_cache_patch_lookup_destroy`, and a query
with or without a lookup. -/
inductive Step where
  | create (symbolName : CString) (convention : NameConvention)
  | destroy (i : Nat)
  | query (target : PatchTarget) (symbolName : CString) (convention : NameConvention)
      (lookup : Option Nat)

/-- A step; only a query answers. -/
def Process.step (memory : Memory) (p : Process) : Step → Option (Option Answer × Process)
  | .create symbolName convention =>
    match allocate p.heap with
    | (false, heap) => some (none, { p with heap := heap })
    | (true, heap) =>
      some (none, { p with
        heap := heap
        lookups := p.lookups ++ [⟨symbolName, convention, none, 0, [], 0, false, false⟩] })
  | .destroy i => some (none, { p with lookups := p.lookups.eraseIdx i })
  | .query target symbolName convention i => do
    let lookup := i.bind fun i ↦ p.lookups[i]?
    let (answer, lookup, slots, heap) ←
      iterateSymbolUses (memory.read target.cacheBase target.cacheSize) target symbolName convention
        lookup p.slots p.heap
    let lookups := match i, lookup with
      | some i, some l => p.lookups.set i l
      | _, _ => p.lookups
    some (some answer, ⟨slots, lookups, heap⟩)

end HookKit.CachePatches
