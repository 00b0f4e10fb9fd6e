import HookKit.Core.Base
import HookKit.Lib.LittleEndian

/-!
# Chained fixups

`HKChainedFixups.c`: the places of an image at which a pointer to an import stands, found by
following the chains that link the fixups of a page.

* `parse`, `importAt`, `decodePointer`, `walkChain`, `walkSegment`, `iterateBinds` — the functions
  of the file.
* `ChainedBind` — what is reported about the place of a pointer.

A read outside the buffers has no meaning in C; the functions here answer `none` then, and also when
the passes of a loop do not suffice.
-/

set_option autoImplicit false

namespace HookKit.Chained

open LittleEndian

/-! ## Formats and statuses -/

/-- `hk_chained_status_t`. -/
inductive ChainedStatus where
  | ok | notFound | invalidArgument | malformed | unsupportedVersion
      | unsupportedFormat | nameTooLong
deriving DecidableEq, Repr

/-- `HK_CHAINED_IMPORT`, `HK_CHAINED_IMPORT_ADDEND` and `HK_CHAINED_IMPORT_ADDEND64`. -/
def chainedImport : Nat := 1
def chainedImportAddend : Nat := 2
def chainedImportAddend64 : Nat := 3

/-- `HK_CHAINED_PTR_ARM64E`, `HK_CHAINED_PTR_64`, `HK_CHAINED_PTR_64_OFFSET`,
`HK_CHAINED_PTR_ARM64E_USERLAND` and `HK_CHAINED_PTR_ARM64E_USERLAND24`. -/
def ptrArm64e : Nat := 1
def ptr64 : Nat := 2
def ptr64Offset : Nat := 6
def ptrArm64eUserland : Nat := 9
def ptrArm64eUserland24 : Nat := 12

/-- `HK_CHAINED_PTR_START_NONE`, `HK_CHAINED_PTR_START_MULTI` and `HK_CHAINED_PTR_START_LAST`. -/
def startNone : Nat := 0xffff
def startMulti : Nat := 0x8000
def startLast : Nat := 0x8000

/-- `HK_CHAINED_HEADER_SIZE` and `HK_CHAINED_STARTS_IN_SEGMENT_HEADER`. -/
def headerSize : Nat := 28
def startsInSegmentHeader : Nat := 22

/-- `hk_chained_fixups_t`. -/
structure ChainedFixups where
  blob : List Byte
  fixupsVersion : Nat
  startsOffset : Nat
  importsOffset : Nat
  symbolsOffset : Nat
  importsCount : Nat
  importsFormat : Nat
  symbolsFormat : Nat
  importEntrySize : Nat
  symbolsSize : Nat

/-- `import_entry_size`. -/
def importEntrySize (format : Nat) : Nat :=
  if format = chainedImport then 4
  else if format = chainedImportAddend then 8
  else if format = chainedImportAddend64 then 16
  else 0

/-- `hk_chained_fixups_parse`: the status, or the handle when it is `ok`; nobody looks at what a
refused blob leaves in the handle. -/
def parse (blob : List Byte) : Option (Except ChainedStatus ChainedFixups) :=
  if blob.length < headerSize then some (.error .malformed)
  else do
    let fixupsVersion ← readLE 4 blob 0
    let startsOffset ← readLE 4 blob 4
    let importsOffset ← readLE 4 blob 8
    let symbolsOffset ← readLE 4 blob 12
    let importsCount ← readLE 4 blob 16
    let importsFormat ← readLE 4 blob 20
    let symbolsFormat ← readLE 4 blob 24
    let entrySize := importEntrySize importsFormat
    if fixupsVersion ≠ 0 then some (.error .unsupportedVersion)
    else if symbolsFormat ≠ 0 then some (.error .unsupportedFormat)
    else if importsCount > 0 ∧ entrySize = 0 then some (.error .unsupportedFormat)
    else if startsOffset > blob.length ∨ importsOffset > blob.length ∨
        symbolsOffset > blob.length then some (.error .malformed)
    else if importsCount * entrySize > blob.length - importsOffset then some (.error .malformed)
    else
      some (.ok {
        blob := blob
        fixupsVersion := fixupsVersion
        startsOffset := startsOffset
        importsOffset := importsOffset
        symbolsOffset := symbolsOffset
        importsCount := importsCount
        importsFormat := importsFormat
        symbolsFormat := symbolsFormat
        importEntrySize := entrySize
        symbolsSize := blob.length - symbolsOffset })

/-! ## Imports -/

/-- The loop of `pool_string`: whether a NUL stands among the next bytes. -/
def scanNul (blob : List Byte) : Nat → Nat → Option Bool
  | 0, _ => some false
  | left + 1, position => do
    let byte ← readLE 1 blob position
    if byte = 0 then some true else scanNul blob left (position + 1)

/-- `pool_string`: where the string begins, counted from the start of the blob. -/
def poolString (blob : List Byte) (pool poolSize offset : Nat) : Option (Option Nat) :=
  if offset ≥ poolSize then some none
  else do
    let found ← scanNul blob (poolSize - offset) (pool + offset)
    some (if found then some (pool + offset) else none)

/-- `hk_chained_import_t`; the name is given by its position in the blob. -/
structure ChainedImport where
  index : Nat
  libOrdinal : Int
  weakImport : Bool
  symbolName : Nat
  addend : Int
deriving DecidableEq, Repr

/-- The addend behind the first word of an entry of the two short formats. -/
def entryAddend (fixups : ChainedFixups) (entry : Nat) : Option Int :=
  if fixups.importsFormat = chainedImportAddend then do
    let addend ← readLE 4 fixups.blob (entry + 4)
    some (BitVec.ofNat 32 addend).toInt
  else some 0

/-- The library ordinal, the weak flag, the name's offset and the addend of the entry at a
position. -/
def importEntry (fixups : ChainedFixups) (entry : Nat) : Option (Option (Int × Bool × Nat × Int)) :=
  if fixups.importsFormat = chainedImport ∨ fixups.importsFormat = chainedImportAddend then do
    let word ← readLE 4 fixups.blob entry
    let addend ← entryAddend fixups entry
    some (some ((BitVec.ofNat 8 (word &&& 0xff)).toInt, word >>> 8 &&& 0x1 ≠ 0,
      word >>> 9 &&& 0x7fffff, addend))
  else if fixups.importsFormat = chainedImportAddend64 then do
    let word ← readLE 8 fixups.blob entry
    let addend ← readLE 8 fixups.blob (entry + 8)
    some (some ((BitVec.ofNat 16 (word &&& 0xffff)).toInt, word >>> 16 &&& 0x1 ≠ 0,
      word >>> 32 &&& 0xffffffff, (BitVec.ofNat 64 addend).toInt))
  else some none

/-- `hk_chained_import_at`. -/
def importAt (fixups : ChainedFixups) (index : Nat) :
    Option (Except ChainedStatus ChainedImport) :=
  if index ≥ fixups.importsCount then some (.error .notFound)
  else do
    let fields ← importEntry fixups (fixups.importsOffset + index * fixups.importEntrySize)
    match fields with
    | none => some (.error .unsupportedFormat)
    | some (libOrdinal, weakImport, nameOffset, addend) => do
      let name ← poolString fixups.blob fixups.symbolsOffset fixups.symbolsSize nameOffset
      match name with
      | none => some (.error .malformed)
      | some symbolName =>
        some (.ok {
          index := index
          libOrdinal := libOrdinal
          weakImport := weakImport
          symbolName := symbolName
          addend := addend })

/-! ## One pointer -/

/-- `format_stride`: the distance the `next` field counts in; 0 for a format that is not decoded. -/
def formatStride (format : Nat) : Nat :=
  if format = ptrArm64e ∨ format = ptrArm64eUserland ∨ format = ptrArm64eUserland24 then 8
  else if format = ptr64 ∨ format = ptr64Offset then 4
  else 0

/-- `format_is_arm64e`. -/
def formatIsArm64e (format : Nat) : Bool :=
  format = ptrArm64e || format = ptrArm64eUserland || format = ptrArm64eUserland24

/-- `sign_extend`. -/
def signExtend (value bits : Nat) : Int :=
  let sign := 2 ^ (bits - 1)
  (BitVec.ofNat 64 (value ^^^ sign) - BitVec.ofNat 64 sign).toInt

/-- `chained_ptr_t`. -/
structure ChainedPtr where
  isBind : Bool
  isAuth : Bool
  ordinal : Nat
  next : Nat
  key : Nat
  diversity : Nat
  addressDiversity : Bool
  addend : Int
deriving DecidableEq, Repr

/-- A pointer after `memset`. -/
def ChainedPtr.zero : ChainedPtr where
  isBind := false
  isAuth := false
  ordinal := 0
  next := 0
  key := 0
  diversity := 0
  addressDiversity := false
  addend := 0

/-- `decode_pointer`. -/
def decodePointer (raw format : Nat) : ChainedPtr :=
  if formatIsArm64e format then
    let ptr := { ChainedPtr.zero with
      isAuth := raw >>> 63 &&& 1 ≠ 0
      isBind := raw >>> 62 &&& 1 ≠ 0
      next := raw >>> 51 &&& 0x7ff
      ordinal := if format = ptrArm64eUserland24 then raw &&& 0xffffff else raw &&& 0xffff }
    if ptr.isBind && ptr.isAuth then
      { ptr with
        diversity := raw >>> 32 &&& 0xffff
        addressDiversity := raw >>> 48 &&& 1 ≠ 0
        key := raw >>> 49 &&& 0x3 }
    else if ptr.isBind then { ptr with addend := signExtend (raw >>> 32 &&& 0x7ffff) 19 }
    else ptr
  else
    let ptr := { ChainedPtr.zero with
      isBind := raw >>> 63 &&& 1 ≠ 0
      next := raw >>> 51 &&& 0xfff
      ordinal := raw &&& 0xffffff }
    if ptr.isBind then { ptr with addend := (raw >>> 24 &&& 0xff : Nat) } else ptr

/-! ## The walk -/

/-- `hk_chained_bind_t`. -/
structure ChainedBind where
  slotImageOffset : Nat
  importOrdinal : Nat
  segmentIndex : Nat
  pointerFormat : Nat
  isAuth : Bool
  key : Nat
  diversity : Nat
  addressDiversity : Bool
  addend : Int
deriving DecidableEq, Repr

/-- `hk_chained_segment_mapping_t`. -/
structure SegmentMapping where
  imageOffset : Nat
  fileOffset : Nat
  fileSize : Nat

/-- `hk_chained_bind_visit_fn`: whether to go on, and what has become of the context. -/
abbrev Visit (σ : Type) := σ → ChainedBind → Bool × σ

/-- `chain_ctx_t`, less the visitor. -/
structure ChainCtx where
  storage : List Byte
  storageSegmentStart : Nat
  storageSegmentSize : Nat
  pointerFormat : Nat
  stride : Nat
  segmentStart : Nat
  segmentEnd : Nat
  segmentIndex : Nat

/-- How a loop ended: the status, whether the visitor stopped it, and the visitor's context. -/
abbrev Walked (σ : Type) := ChainedStatus × Bool × σ

variable {σ : Type}

/-- Visit a pointer, if it is a bind. -/
def visitPtr (c : ChainCtx) (visit : Visit σ) (offset : Nat)
    (ptr : ChainedPtr) (s : σ) : Bool × σ :=
  if ptr.isBind then
    visit s {
      slotImageOffset := offset
      importOrdinal := ptr.ordinal
      segmentIndex := c.segmentIndex
      pointerFormat := c.pointerFormat
      isAuth := ptr.isAuth
      key := ptr.key
      diversity := ptr.diversity
      addressDiversity := ptr.addressDiversity
      addend := ptr.addend }
  else (true, s)

/-- `walk_chain`; the first argument counts the passes that are left. -/
def walkChain (c : ChainCtx) (visit : Visit σ) : Nat → Nat → σ → Option (Walked σ)
  | 0, _, _ => none
  | passes + 1, offset, s =>
    if offset < c.segmentStart ∨ offset > c.segmentEnd ∨ 8 > c.segmentEnd - offset then
      some (.malformed, false, s)
    else
      let withinSegment := offset - c.segmentStart
      if withinSegment + 8 > c.storageSegmentSize ∨ c.storageSegmentStart > c.storage.length ∨
          withinSegment + 8 > c.storage.length - c.storageSegmentStart then
        some (.malformed, false, s)
      else
        match readLE 8 c.storage (c.storageSegmentStart + withinSegment) with
        | none => none
        | some raw =>
          let ptr := decodePointer raw c.pointerFormat
          match visitPtr c visit offset ptr s with
          | (false, s) => some (.ok, true, s)
          | (true, s) =>
            if ptr.next = 0 then some (.ok, false, s)
            else
              let advanced := (offset + ptr.next * c.stride) % 2 ^ 64
              if advanced ≤ offset then some (.malformed, false, s)
              else walkChain c visit passes advanced s

/-- As many passes as a chain from `offset` can take: every one gets closer to the segment's end. -/
def ChainCtx.passes (c : ChainCtx) (offset : Nat) : Nat := c.segmentEnd - offset + 1

/-- The loop over an overflow list, from the entry `index` on. -/
def walkMulti (c : ChainCtx) (visit : Visit σ) (blob : List Byte)
    (pageStart startsExtent pageBase : Nat) :
    Nat → Nat → σ → Option (Walked σ)
  | 0, _, _ => none
  | passes + 1, index, s =>
    if index * 2 + 2 > startsExtent then some (.malformed, false, s)
    else
      match readLE 2 blob (pageStart + index * 2) with
      | none => none
      | some entry =>
        let offset := (pageBase + (entry &&& 0x7fff)) % 2 ^ 64
        match walkChain c visit (c.passes offset) offset s with
        | some (.ok, false, s) =>
          if entry &&& startLast ≠ 0 then some (.ok, false, s)
          else walkMulti c visit blob pageStart startsExtent pageBase passes (index + 1) s
        | ended => ended

/-- The loop over the pages of a segment; the first argument counts the pages that are left. -/
def walkPages (c : ChainCtx) (visit : Visit σ) (blob : List Byte)
    (pageStart startsExtent pageSize : Nat) : Nat → Nat → σ → Option (Walked σ)
  | 0, _, s => some (.ok, false, s)
  | left + 1, page, s =>
    match readLE 2 blob (pageStart + page * 2) with
    | none => none
    | some start =>
      let pageBase := c.segmentStart + page * pageSize
      let walked :=
        if start = startNone then some (.ok, false, s)
        else if start &&& startMulti ≠ 0 then
          walkMulti c visit blob pageStart startsExtent pageBase
            (startsExtent + 1) (start &&& 0x7fff) s
        else
          let offset := (pageBase + start) % 2 ^ 64
          walkChain c visit (c.passes offset) offset s
      match walked with
      | some (.ok, false, s) =>
        walkPages c visit blob pageStart startsExtent pageSize left (page + 1) s
      | ended => ended

/-- `walk_segment`. -/
def walkSegment (fixups : ChainedFixups) (storage : List Byte) (mapping : Option SegmentMapping)
    (segInfoOffset segmentIndex : Nat) (visit : Visit σ) (s : σ) : Option (Walked σ) :=
  let blobSize := fixups.blob.length
  if segInfoOffset > blobSize ∨ blobSize - segInfoOffset < startsInSegmentHeader then
    some (.malformed, false, s)
  else do
    let declaredSize ← readLE 4 fixups.blob segInfoOffset
    let pageSize ← readLE 2 fixups.blob (segInfoOffset + 4)
    let ptrFormat ← readLE 2 fixups.blob (segInfoOffset + 6)
    let segmentOff ← readLE 8 fixups.blob (segInfoOffset + 8)
    let pageCount ← readLE 2 fixups.blob (segInfoOffset + 20)
    if pageSize = 0 then some (.malformed, false, s)
    else if formatStride ptrFormat = 0 then some (.unsupportedFormat, false, s)
    else if declaredSize < startsInSegmentHeader then some (.malformed, false, s)
    else
      -- the overflow list lies behind the page starts, so the declared size bounds it
      let startsExtent := declaredSize - startsInSegmentHeader
      if startsExtent > blobSize - segInfoOffset - startsInSegmentHeader then
        some (.malformed, false, s)
      else if pageCount * 2 > startsExtent then some (.malformed, false, s)
      else if mapping.any fun m ↦ m.imageOffset ≠ segmentOff then some (.malformed, false, s)
      else if pageCount * pageSize > 2 ^ 64 - 1 - segmentOff then some (.malformed, false, s)
      else
        walkPages {
            storage := storage
            storageSegmentStart := (mapping.map SegmentMapping.fileOffset).getD segmentOff
            storageSegmentSize :=
              (mapping.map SegmentMapping.fileSize).getD
                (storage.length - min segmentOff storage.length)
            pointerFormat := ptrFormat
            stride := formatStride ptrFormat
            segmentStart := segmentOff
            segmentEnd := segmentOff + pageCount * pageSize
            segmentIndex := segmentIndex }
          visit fixups.blob (segInfoOffset + startsInSegmentHeader) startsExtent
            pageSize pageCount 0 s

/-- The loop over the segments; the first argument counts the segments that are left. -/
def walkSegments (fixups : ChainedFixups) (storage : List Byte)
    (segments : Option (List SegmentMapping)) (visit : Visit σ) : Nat → Nat → σ → Option (Walked σ)
  | 0, _, s => some (.ok, false, s)
  | left + 1, i, s =>
    match readLE 4 fixups.blob (fixups.startsOffset + 4 + i * 4) with
    | none => none
    | some segInfoOffset =>
      if segInfoOffset = 0 then walkSegments fixups storage segments visit left (i + 1) s
      else if segments.any fun mappings ↦ i ≥ mappings.length then some (.malformed, false, s)
      else if segInfoOffset > fixups.blob.length - fixups.startsOffset then
        some (.malformed, false, s)
      else
        match walkSegment fixups storage (segments.bind fun mappings ↦ mappings[i]?)
            (fixups.startsOffset + segInfoOffset) i visit s with
        | some (.ok, false, s) => walkSegments fixups storage segments visit left (i + 1) s
        | ended => ended

/-- `iterate_binds`. -/
def iterate (fixups : ChainedFixups) (storage : List Byte) (segments : Option (List SegmentMapping))
    (visit : Visit σ) (s : σ) : Option (ChainedStatus × σ) :=
  if segments.any List.isEmpty then some (.invalidArgument, s)
  else if fixups.startsOffset > fixups.blob.length ∨
    fixups.blob.length - fixups.startsOffset < 4 then
    some (.malformed, s)
  else do
    let segCount ← readLE 4 fixups.blob fixups.startsOffset
    if segCount * 4 > fixups.blob.length - fixups.startsOffset - 4 then some (.malformed, s)
    else
      let (status, _, s) ← walkSegments fixups storage segments visit segCount 0 s
      some (status, s)

/-- `hk_chained_fixups_iterate_binds`. -/
def iterateBinds (fixups : ChainedFixups) (imageBase : List Byte) (visit : Visit σ) (s : σ) :
    Option (ChainedStatus × σ) :=
  iterate fixups imageBase none visit s

/-- `hk_chained_fixups_iterate_file_binds`. -/
def iterateFileBinds (fixups : ChainedFixups) (file : List Byte) (segments : List SegmentMapping)
    (visit : Visit σ) (s : σ) : Option (ChainedStatus × σ) :=
  iterate fixups file (some segments) visit s

end HookKit.Chained
