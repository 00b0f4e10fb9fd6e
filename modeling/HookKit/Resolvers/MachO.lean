import HookKit.Core.Base
import HookKit.Lib.LittleEndian

/-!
# Mach-O containers

`HKMachO.c` and the tables of `HKImportSlots.c`: the load commands of a 64-bit Mach-O image and what
they say about where its tables are.

* `iterateLoadCommands` — the bounded walk over the load commands, with any visitor.
* `findSymtabView`, `findExportTrie`, `findChainedFixups`, `importTablesFromFileImage` — the tables
  of an image laid out as on disk.
* `symtabViewForLoadedImage`, `exportTrieForLoadedImage`, `chainedFixupsForLoadedImage`,
  `importTablesFromLoadedImage` — the same tables of a loaded image, found through `__LINKEDIT`.

A buffer is the list of its bytes.  A read outside of it has no meaning in C; the functions here
answer `none` then.
-/

set_option autoImplicit false

namespace HookKit.MachO

open LittleEndian

/-! ## Statuses and sizes -/

/-- `hk_macho_status_t`. -/
inductive MachoStatus where
  | ok | tooSmall | notMacho | fatUnsupported | byteOrderUnsupported | not64Bit
      | malformed | notFound
deriving DecidableEq, Repr

/-- The magic values. -/
def mhMagic64 : Nat := 0xfeedfacf
def mhCigam64 : Nat := 0xcffaedfe
def mhMagic : Nat := 0xfeedface
def mhCigam : Nat := 0xcefaedfe
def fatMagic : Nat := 0xcafebabe
def fatCigam : Nat := 0xbebafeca

/-- The types of load commands. -/
def lcSymtab : Nat := 0x02
def lcDysymtab : Nat := 0x0b
def lcSegment64 : Nat := 0x19
def lcDyldInfo : Nat := 0x22
def lcDyldInfoOnly : Nat := 0x80000022
def lcDyldExportsTrie : Nat := 0x80000033
def lcDyldChainedFixups : Nat := 0x80000034

/-- The sizes of the structures on disk. -/
def headerSize : Nat := 32
def loadCommandSize : Nat := 8
def symtabCommandSize : Nat := 24
def segmentCommandSize : Nat := 72
def sectionSize : Nat := 80
def linkeditDataCmdSize : Nat := 16
def dyldInfoCommandSize : Nat := 48
def dysymtabCommandSize : Nat := 80

/-- `sizeof(hk_macho_nlist64_t)`, and its alignment. -/
def nlistSize : Nat := 16
def nlistAlign : Nat := 8

/-! ## The header and the walk -/

/-- `hk_macho_header_t`. -/
structure MachoHeader where
  magic : Nat
  cputype : Nat
  cpusubtype : Nat
  filetype : Nat
  ncmds : Nat
  sizeofcmds : Nat
  flags : Nat
deriving DecidableEq, Repr

/-- `hk_macho_peek_header`. -/
def peekHeader (image : List Byte) : Option (Except MachoStatus MachoHeader) :=
  if image.length < 4 then some (.error .tooSmall)
  else do
    let magic ← readLE 4 image 0
    if magic = mhCigam64 then some (.error .byteOrderUnsupported)
    else if magic = mhMagic ∨ magic = mhCigam then some (.error .not64Bit)
    else if magic = fatMagic ∨ magic = fatCigam then some (.error .fatUnsupported)
    else if magic ≠ mhMagic64 then some (.error .notMacho)
    else if image.length < headerSize then some (.error .tooSmall)
    else do
      let cputype ← readLE 4 image 4
      let cpusubtype ← readLE 4 image 8
      let filetype ← readLE 4 image 12
      let ncmds ← readLE 4 image 16
      let sizeofcmds ← readLE 4 image 20
      let flags ← readLE 4 image 24
      some (.ok ⟨magic, cputype, cpusubtype, filetype, ncmds, sizeofcmds, flags⟩)

/-- `hk_macho_read_header`: the load commands have to lie inside the buffer, too. -/
def readHeader (image : List Byte) : Option (Except MachoStatus MachoHeader) := do
  match ← peekHeader image with
  | .error status => some (.error status)
  | .ok header =>
    if header.sizeofcmds > image.length - headerSize then some (.error .malformed)
    else some (.ok header)

/-- `hk_macho_lc_visit_fn`: given the type, the offset and the size of a command, whether to go on,
and what has become of the context; `none` when the visitor itself reads outside the buffer. -/
abbrev LcVisit (σ : Type) := σ → Nat → Nat → Nat → Option (Bool × σ)

variable {σ : Type}

/-- The loop of `hk_macho_iterate_load_commands`; `left` counts the commands that are left. -/
def walkCommands (image : List Byte) (visit : LcVisit σ) (stop : Nat) :
    Nat → Nat → σ → Option (MachoStatus × σ)
  | 0, _, s => some (.ok, s)
  | left + 1, offset, s =>
    if stop - offset < loadCommandSize then some (.malformed, s)
    else do
      let cmd ← readLE 4 image offset
      let cmdsize ← readLE 4 image (offset + 4)
      -- a command that does not advance the cursor would be visited for ever
      if cmdsize < loadCommandSize ∨ cmdsize % 8 ≠ 0 then some (.malformed, s)
      else if cmdsize > stop - offset then some (.malformed, s)
      else do
        let (more, s) ← visit s cmd offset cmdsize
        if more then walkCommands image visit stop left (offset + cmdsize) s else some (.ok, s)

/-- `hk_macho_iterate_load_commands`. -/
def iterateLoadCommands (image : List Byte) (visit : LcVisit σ) (s : σ) :
    Option (MachoStatus × σ) := do
  match ← readHeader image with
  | .error status => some (status, s)
  | .ok header =>
    walkCommands image visit (headerSize + header.sizeofcmds) header.ncmds headerSize s

/-- `find_lc_visit`; the context is the command that was found. -/
def findLcVisit (wanted : Nat) : LcVisit (Option (Nat × Nat)) := fun s cmd offset cmdsize ↦
  if cmd = wanted then some (false, some (offset, cmdsize)) else some (true, s)

/-- `hk_macho_find_load_command`: offset and size of the first command of a type. -/
def findLoadCommand (image : List Byte) (cmd : Nat) : Option (Except MachoStatus (Nat × Nat)) := do
  match ← iterateLoadCommands image (findLcVisit cmd) none with
  | (.ok, some found) => some (.ok found)
  | (.ok, none) => some (.error .notFound)
  | (status, _) => some (.error status)

/-! ## The symbol table of a file -/

/-- `hk_symbol_table_view_t`; a view after `memset` is all zero. -/
structure SymbolTableView where
  nlist : BitVec 64
  nlistCount : Nat
  strings : BitVec 64
  stringsSize : Nat
deriving DecidableEq, Repr

/-- The four numbers of LC_SYMTAB. -/
structure SymtabRanges where
  symoff : Nat
  nsyms : Nat
  stroff : Nat
  strsize : Nat

/-- The numbers of the LC_SYMTAB of an image. -/
def readSymtab (image : List Byte) : Option (Except MachoStatus SymtabRanges) := do
  match ← findLoadCommand image lcSymtab with
  | .error status => some (.error status)
  | .ok (offset, cmdsize) =>
    if cmdsize < symtabCommandSize then some (.error .malformed)
    else do
      let symoff ← readLE 4 image (offset + 8)
      let nsyms ← readLE 4 image (offset + 12)
      let stroff ← readLE 4 image (offset + 16)
      let strsize ← readLE 4 image (offset + 20)
      some (.ok ⟨symoff, nsyms, stroff, strsize⟩)

/-- `hk_macho_find_symtab_view` of the buffer at `base`. -/
def findSymtabView (base : BitVec 64) (image : List Byte) :
    Option (Except MachoStatus SymbolTableView) := do
  match ← readSymtab image with
  | .error status => some (.error status)
  | .ok r =>
    if r.symoff > image.length ∨ r.nsyms * nlistSize > image.length - r.symoff then
      some (.error .malformed)
    else if r.stroff > image.length ∨ r.strsize > image.length - r.stroff then
      some (.error .malformed)
    -- callers dereference the typed pointer
    else if (base + BitVec.ofNat 64 r.symoff).toNat % nlistAlign ≠ 0 then some (.error .malformed)
    else
      some (.ok ⟨base + BitVec.ofNat 64 r.symoff, r.nsyms, base + BitVec.ofNat 64 r.stroff,
        r.strsize⟩)

/-! ## Segments and sections -/

/-- `hk_macho_segment_t`; the name ends where its copy would be terminated. -/
structure MachoSegment where
  segname : List Byte
  vmaddr : Nat
  vmsize : Nat
  fileoff : Nat
  filesize : Nat
  maxprot : Nat
  initprot : Nat
  nsects : Nat
  flags : Nat
  commandOffset : Nat
  cmdsize : Nat
deriving DecidableEq, Repr

/-- A fixed field as the C string its terminated copy is. -/
def fixedName (bytes : List Byte) : List Byte := bytes.takeWhile (· ≠ 0#8)

/-- `read_segment`; `none` in the answer when the command is too small for the structure. -/
def readSegment (image : List Byte) (offset cmdsize : Nat) : Option (Option MachoSegment) :=
  if cmdsize < segmentCommandSize then some none
  else do
    let segname ← readAt 16 image (offset + 8)
    let vmaddr ← readLE 8 image (offset + 24)
    let vmsize ← readLE 8 image (offset + 32)
    let fileoff ← readLE 8 image (offset + 40)
    let filesize ← readLE 8 image (offset + 48)
    let maxprot ← readLE 4 image (offset + 56)
    let initprot ← readLE 4 image (offset + 60)
    let nsects ← readLE 4 image (offset + 64)
    let flags ← readLE 4 image (offset + 68)
    some (some ⟨fixedName segname, vmaddr, vmsize, fileoff, filesize, maxprot, initprot, nsects,
      flags, offset, cmdsize⟩)

/-- `sections_fit`. -/
def MachoSegment.sectionsFit (seg : MachoSegment) : Bool :=
  segmentCommandSize + seg.nsects * sectionSize ≤ seg.cmdsize

/-- `segments_ctx_t`, less the visitor. -/
structure SegmentsCtx (σ : Type) where
  ctx : σ
  index : Nat
  malformed : Bool

/-- `segments_visit`. -/
def segmentsVisit (image : List Byte) (visit : σ → Nat → MachoSegment → Bool × σ) :
    LcVisit (SegmentsCtx σ) := fun s cmd offset cmdsize ↦
  if cmd ≠ lcSegment64 then some (true, s)
  else do
    match ← readSegment image offset cmdsize with
    | none => some (false, { s with malformed := true })
    | some seg =>
      let (more, ctx) := visit s.ctx s.index seg
      some (more, { s with ctx := ctx, index := s.index + 1 })

/-- `hk_macho_iterate_segments`. -/
def iterateSegments (image : List Byte) (visit : σ → Nat → MachoSegment → Bool × σ) (s : σ) :
    Option (MachoStatus × σ) := do
  match ← iterateLoadCommands image (segmentsVisit image visit) ⟨s, 0, false⟩ with
  | (.ok, s) => some (if s.malformed then .malformed else .ok, s.ctx)
  | (status, s) => some (status, s.ctx)

/-- `find_segment_ctx_t`: the segment that was found, and whether a command was malformed. -/
abbrev FindSegmentCtx := Option MachoSegment × Bool

/-- `find_segment_visit`. -/
def findSegmentVisit (image wanted : List Byte) : LcVisit FindSegmentCtx :=
    fun f cmd offset cmdsize ↦
  if cmd ≠ lcSegment64 then some (true, f)
  else do
    match ← readSegment image offset cmdsize with
    | none => some (false, (f.1, true))
    | some seg => if seg.segname = wanted then some (false, (some seg, f.2)) else some (true, f)

/-- `hk_macho_find_segment`. -/
def findSegment (image segname : List Byte) : Option (Except MachoStatus MachoSegment) := do
  match ← iterateLoadCommands image (findSegmentVisit image segname) (none, false) with
  | (.ok, _, true) => some (.error .malformed)
  | (.ok, some seg, false) => some (.ok seg)
  | (.ok, none, false) => some (.error .notFound)
  | (status, _) => some (.error status)

/-- `hk_macho_section_t`. -/
structure MachoSection where
  sectname : List Byte
  segname : List Byte
  addr : Nat
  size : Nat
  offset : Nat
  flags : Nat
  reserved1 : Nat
  reserved2 : Nat
deriving DecidableEq, Repr

/-- `read_section`. -/
def readSection (image : List Byte) (offset : Nat) : Option MachoSection := do
  let sectname ← readAt 16 image offset
  let segname ← readAt 16 image (offset + 16)
  let addr ← readLE 8 image (offset + 32)
  let size ← readLE 8 image (offset + 40)
  let fileOffset ← readLE 4 image (offset + 48)
  let flags ← readLE 4 image (offset + 64)
  let reserved1 ← readLE 4 image (offset + 68)
  let reserved2 ← readLE 4 image (offset + 72)
  some ⟨fixedName sectname, fixedName segname, addr, size, fileOffset, flags, reserved1, reserved2⟩

/-- The loop of `sections_visit` over the sections of a segment command at `offset`, from section
`i` on; `left` counts the sections that are left.  The answer tells whether the loop was stopped. -/
def walkSections (image : List Byte) (visit : σ → Nat → MachoSection → Bool × σ)
    (offset running : Nat) : Nat → Nat → σ → Option (Bool × σ)
  | 0, _, s => some (false, s)
  | left + 1, i, s => do
    let sect ← readSection image (offset + segmentCommandSize + i * sectionSize)
    -- an nlist can name only 255 sections
    if running + i + 1 > 0xff then some (true, s)
    else
      match visit s (running + i + 1) sect with
      | (false, s) => some (true, s)
      | (true, s) => walkSections image visit offset running left (i + 1) s

/-- `sections_ctx_t`, less the visitor; nobody looks at `stopped`. -/
structure SectionsCtx (σ : Type) where
  ctx : σ
  running : Nat
  malformed : Bool

/-- `sections_visit`. -/
def sectionsVisit (image : List Byte) (visit : σ → Nat → MachoSection → Bool × σ) :
    LcVisit (SectionsCtx σ) := fun s cmd offset cmdsize ↦
  if cmd ≠ lcSegment64 then some (true, s)
  else do
    match ← readSegment image offset cmdsize with
    | none => some (false, { s with malformed := true })
    | some seg =>
      if !seg.sectionsFit then some (false, { s with malformed := true })
      else do
        match ← walkSections image visit offset s.running seg.nsects 0 s.ctx with
        | (true, ctx) => some (false, { s with ctx := ctx })
        | (false, ctx) => some (true, { s with ctx := ctx, running := s.running + seg.nsects })

/-- `hk_macho_iterate_sections`. -/
def iterateSections (image : List Byte) (visit : σ → Nat → MachoSection → Bool × σ) (s : σ) :
    Option (MachoStatus × σ) := do
  match ← iterateLoadCommands image (sectionsVisit image visit) ⟨s, 0, false⟩ with
  | (.ok, s) => some (if s.malformed then .malformed else .ok, s.ctx)
  | (status, s) => some (status, s.ctx)

/-- `section_lookup_visit`. -/
def sectionLookupVisit (wanted : Nat) (found : Option MachoSection) (nSect : Nat)
    (sect : MachoSection) : Bool × Option MachoSection :=
  if nSect = wanted then (false, some sect) else (true, found)

/-- `hk_macho_section_info`. -/
def sectionInfo (image : List Byte) (nSect : Nat) : Option (Except MachoStatus MachoSection) :=
  if nSect = 0 then some (.error .notFound)
  else do
    match ← iterateSections image (sectionLookupVisit nSect) none with
    | (.ok, some sect) => some (.ok sect)
    | (.ok, none) => some (.error .notFound)
    | (status, _) => some (.error status)

/-! ## Ranges declared by a load command -/

/-- `export_trie_ctx_t`, `linkedit_data_ctx_t` and `dysymtab_ctx_t`: the two numbers that were
found. -/
structure DataCtx where
  dataOff : Nat
  dataSize : Nat
  found : Bool
  malformed : Bool

def DataCtx.zero : DataCtx := ⟨0, 0, false, false⟩

/-- Take the two numbers at a place of a command that has to have a size. -/
def takeRange (image : List Byte) (size place : Nat) (more : Bool) (s : DataCtx)
    (offset cmdsize : Nat) : Option (Bool × DataCtx) :=
  if cmdsize < size then some (false, { s with malformed := true })
  else do
    let dataOff ← readLE 4 image (offset + place)
    let dataSize ← readLE 4 image (offset + place + 4)
    some (more, { s with dataOff := dataOff, dataSize := dataSize, found := true })

/-- `export_trie_visit`: the modern command wins over the older one, wherever they stand. -/
def exportTrieVisit (image : List Byte) : LcVisit DataCtx := fun e cmd offset cmdsize ↦
  if cmd = lcDyldExportsTrie then
    takeRange image linkeditDataCmdSize 8 false e offset cmdsize
  else if (cmd = lcDyldInfo ∨ cmd = lcDyldInfoOnly) ∧ !e.found then
    takeRange image dyldInfoCommandSize 40 true e offset cmdsize
  else some (true, e)

/-- `linkedit_data_visit`. -/
def linkeditDataVisit (image : List Byte) : LcVisit DataCtx := fun d cmd offset cmdsize ↦
  if cmd ≠ lcDyldChainedFixups then some (true, d)
  else takeRange image linkeditDataCmdSize 8 false d offset cmdsize

/-- `dysymtab_visit`. -/
def dysymtabVisit (image : List Byte) : LcVisit DataCtx := fun d cmd offset cmdsize ↦
  if cmd ≠ lcDysymtab then some (true, d)
  else takeRange image dysymtabCommandSize 56 false d offset cmdsize

/-- What the three lookups make of their walk; an empty range counts as absent. -/
def declaredRange (image : List Byte) (visit : LcVisit DataCtx) :
    Option (Except MachoStatus (Nat × Nat)) := do
  match ← iterateLoadCommands image visit .zero with
  | (.ok, d) =>
    if d.malformed then some (.error .malformed)
    else if !d.found ∨ d.dataSize = 0 then some (.error .notFound)
    else some (.ok (d.dataOff, d.dataSize))
  | (status, _) => some (.error status)

/-- `export_trie_file_range`. -/
def exportTrieFileRange (image : List Byte) : Option (Except MachoStatus (Nat × Nat)) :=
  declaredRange image (exportTrieVisit image)

/-- `chained_fixups_file_range`. -/
def chainedFixupsFileRange (image : List Byte) : Option (Except MachoStatus (Nat × Nat)) :=
  declaredRange image (linkeditDataVisit image)

/-- `hk_macho_find_indirect_symbols`: file offset and count, checked by nobody yet. -/
def findIndirectSymbols (image : List Byte) : Option (Except MachoStatus (Nat × Nat)) :=
  declaredRange image (dysymtabVisit image)

/-- A declared range that has to lie inside the image. -/
def rangeInImage (image : List Byte) (range : Option (Except MachoStatus (Nat × Nat))) :
    Option (Except MachoStatus (Nat × Nat)) := do
  match ← range with
  | .error status => some (.error status)
  | .ok (off, len) =>
    if off > image.length ∨ len > image.length - off then some (.error .malformed)
    else some (.ok (off, len))

/-- `hk_macho_find_export_trie`: offset and size. -/
def findExportTrie (image : List Byte) : Option (Except MachoStatus (Nat × Nat)) :=
  rangeInImage image (exportTrieFileRange image)

/-- `hk_macho_find_chained_fixups`: offset and size. -/
def findChainedFixups (image : List Byte) : Option (Except MachoStatus (Nat × Nat)) :=
  rangeInImage image (chainedFixupsFileRange image)

/-! ## The tables of a loaded image -/

/-- `"__LINKEDIT"`. -/
def linkeditName : List Byte :=
  [0x5f#8, 0x5f#8, 0x4c#8, 0x49#8, 0x4e#8, 0x4b#8, 0x45#8, 0x44#8, 0x49#8, 0x54#8]

/-- `UINT64_MAX`. -/
def uint64Max : Nat := 2 ^ 64 - 1

/-- What `linkedit_mapping` finds out: the base to which file offsets are added, and the file range
of the segment. -/
structure LinkeditMapping where
  base : BitVec 64
  fileStart : Nat
  fileEnd : Nat

/-- The base and the file range of a segment, unless its arithmetic would wrap. -/
def MachoSegment.mapping (seg : MachoSegment) (slide : BitVec 64) : Option LinkeditMapping :=
  if seg.filesize > uint64Max - seg.fileoff then none
  else if seg.fileoff > seg.vmaddr then none
  else
    some ⟨slide + BitVec.ofNat 64 (seg.vmaddr - seg.fileoff), seg.fileoff,
      seg.fileoff + seg.filesize⟩

/-- `linkedit_mapping`. -/
def linkeditMapping (header : List Byte) (slide : BitVec 64) :
    Option (Except MachoStatus LinkeditMapping) := do
  match ← findSegment header linkeditName with
  | .error status => some (.error status)
  | .ok seg =>
    match seg.mapping slide with
    | none => some (.error .malformed)
    | some mapping => some (.ok mapping)

/-- `within_linkedit`. -/
def LinkeditMapping.holds (m : LinkeditMapping) (offset length : Nat) : Bool :=
  if offset < m.fileStart ∨ offset > m.fileEnd then false else length ≤ m.fileEnd - offset

/-- The address of a file offset. -/
def LinkeditMapping.addressOf (m : LinkeditMapping) (offset : Nat) : BitVec 64 :=
  m.base + BitVec.ofNat 64 offset

/-- `hk_macho_symtab_view_for_loaded_image`. -/
def symtabViewForLoadedImage (header : List Byte) (slide : BitVec 64) :
    Option (Except MachoStatus SymbolTableView) := do
  match ← linkeditMapping header slide with
  | .error status => some (.error status)
  | .ok m =>
    match ← readSymtab header with
    | .error status => some (.error status)
    | .ok r =>
      if !m.holds r.symoff (r.nsyms * nlistSize) then some (.error .malformed)
      else if !m.holds r.stroff r.strsize then some (.error .malformed)
      else if (m.addressOf r.symoff).toNat % nlistAlign ≠ 0 then some (.error .malformed)
      else some (.ok ⟨m.addressOf r.symoff, r.nsyms, m.addressOf r.stroff, r.strsize⟩)

/-- A declared range, as an address and a size; it has to lie inside `__LINKEDIT`. -/
def rangeInLinkedit (header : List Byte) (slide : BitVec 64)
    (range : Option (Except MachoStatus (Nat × Nat))) :
    Option (Except MachoStatus (BitVec 64 × Nat)) := do
  match ← range with
  | .error status => some (.error status)
  | .ok (off, len) =>
    match ← linkeditMapping header slide with
    | .error status => some (.error status)
    | .ok m =>
      if !m.holds off len then some (.error .malformed) else some (.ok (m.addressOf off, len))

/-- `hk_macho_export_trie_for_loaded_image`. -/
def exportTrieForLoadedImage (header : List Byte) (slide : BitVec 64) :
    Option (Except MachoStatus (BitVec 64 × Nat)) :=
  rangeInLinkedit header slide (exportTrieFileRange header)

/-- `hk_macho_chained_fixups_for_loaded_image`. -/
def chainedFixupsForLoadedImage (header : List Byte) (slide : BitVec 64) :
    Option (Except MachoStatus (BitVec 64 × Nat)) :=
  rangeInLinkedit header slide (chainedFixupsFileRange header)

/-! ## Import tables -/

/-- `hk_import_status_t`, as far as the tables go. -/
inductive ImportStatus where
  | malformed
deriving DecidableEq, Repr

/-- `hk_import_tables_t`; a table that is absent is `none`. -/
structure ImportTables where
  indirect : Option (BitVec 64 × Nat)
  symbols : Option SymbolTableView
deriving DecidableEq, Repr

/-- The symbols of the import tables: absence is not an error. -/
def importSymbols : Except MachoStatus SymbolTableView →
    Except ImportStatus (Option SymbolTableView)
  | .ok view => .ok (some view)
  | .error .notFound => .ok none
  | .error _ => .error .malformed

/-- The indirect symbols of the import tables: without them there is nothing to report, which is not
an error. -/
def importIndirect (symbols : Option SymbolTableView) (indirect : Except MachoStatus (Nat × Nat))
    (locate : Nat → Nat → Option (Except ImportStatus (Option (BitVec 64)))) :
    Option (Except ImportStatus ImportTables) :=
  match indirect with
  | .error .notFound => some (.ok ⟨none, symbols⟩)
  | .error _ => some (.error .malformed)
  | .ok (offset, count) => do
    match ← locate offset count with
    | .error status => some (.error status)
    | .ok none => some (.ok ⟨none, symbols⟩)
    | .ok (some address) => some (.ok ⟨some (address, count), symbols⟩)

/-- Where an indirect symbol table stands in the buffer at `base`. -/
def locateInImage (base : BitVec 64) (image : List Byte) (offset count : Nat) :
    Option (Except ImportStatus (Option (BitVec 64))) :=
  if offset > image.length ∨ count * 4 > image.length - offset then some (.error .malformed)
  else some (.ok (some (base + BitVec.ofNat 64 offset)))

/-- `hk_import_tables_from_file_image` of the buffer at `base`. -/
def importTablesFromFileImage (base : BitVec 64) (image : List Byte) :
    Option (Except ImportStatus ImportTables) := do
  match importSymbols (← findSymtabView base image) with
  | .error status => some (.error status)
  | .ok symbols =>
    importIndirect symbols (← findIndirectSymbols image) (locateInImage base image)

/-- Where an indirect symbol table stands in a loaded image: without `__LINKEDIT` there is none. -/
def locateInLinkedit (header : List Byte) (slide : BitVec 64) (offset count : Nat) :
    Option (Except ImportStatus (Option (BitVec 64))) := do
  match ← findSegment header linkeditName with
  | .error .notFound => some (.ok none)
  | .error _ => some (.error .malformed)
  | .ok seg =>
    match seg.mapping slide with
    | none => some (.error .malformed)
    | some m =>
      if !m.holds offset (count * 4) then some (.error .malformed)
      else some (.ok (some (m.addressOf offset)))

/-- `hk_import_tables_from_loaded_image`. -/
def importTablesFromLoadedImage (header : List Byte) (slide : BitVec 64) :
    Option (Except ImportStatus ImportTables) := do
  match importSymbols (← symtabViewForLoadedImage header slide) with
  | .error status => some (.error status)
  | .ok symbols =>
    importIndirect symbols (← findIndirectSymbols header) (locateInLinkedit header slide)

end HookKit.MachO
