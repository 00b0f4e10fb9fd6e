import HookKit.Resolvers.MachOWalk

/-!
# Loaded images and files

A loaded image has its header and load commands in memory as they are in the file, but its tables
stand where `__LINKEDIT` is mapped.

* `iterate_append` — the walk over the header region is the walk over the file.
* `Loaded` — an image that is in memory both as a file and as dyld maps it.
* `loadedTables_agree` — the tables found either way have the same contents.
* `loadedTables_inside` — a table of a loaded image is only found inside `__LINKEDIT`.
-/

set_option autoImplicit false

namespace HookKit.MachO

open LittleEndian Checked

variable {σ : Type}

/-! ## The header region is the beginning of the file -/

section Append

variable {header : List Byte} (rest : List Byte)

theorem peekHeader_append {h : MachoHeader} (hpeek : peekHeader header = some (.ok h)) :
    peekHeader (header ++ rest) = some (.ok h) := by
  have hsize : headerSize ≤ header.length := (peekHeader_safe header).of_eq hpeek h rfl
  rw [headerSize] at hsize
  have hlong : header.length ≤ (header ++ rest).length := by simp
  have hread : ∀ position, position + 4 ≤ 32 →
      readLE 4 (header ++ rest) position = readLE 4 header position :=
    fun position h ↦ readLE_append rest (by omega)
  rw [peekHeader, if_neg (by omega)] at hpeek ⊢
  rw [hread 0 (by decide), hread 4 (by decide), hread 8 (by decide), hread 12 (by decide),
    hread 16 (by decide), hread 20 (by decide), hread 24 (by decide)]
  have hlong₁ : ¬ header.length < headerSize := by rw [headerSize]; omega
  have hlong₂ : ¬ (header ++ rest).length < headerSize := by rw [headerSize]; omega
  simpa only [if_neg hlong₁, if_neg hlong₂] using hpeek

theorem readHeader_append {h : MachoHeader} (hread : readHeader header = some (.ok h)) :
    readHeader (header ++ rest) = some (.ok h) := by
  rw [readHeader] at hread ⊢
  obtain ⟨r, hpeek, -⟩ := peekHeader_safe header
  rw [hpeek] at hread
  cases r with
  | error status => cases hread
  | ok h' =>
    simp only [Option.bind_eq_bind, Option.bind_some] at hread
    split at hread
    · cases hread
    · rename_i hfits
      cases hread
      rw [peekHeader_append rest hpeek]
      simp only [Option.bind_eq_bind, Option.bind_some]
      rw [if_neg]
      rw [List.length_append]
      omega

/-- Two visitors that do the same with the commands of the header region. -/
def VisitorsAgree (header : List Byte) (visit visit' : LcVisit σ) : Prop :=
  ∀ s (c : LoadCommand), c.Inside header.length →
    visit' s c.cmd c.offset c.cmdsize = visit s c.cmd c.offset c.cmdsize

theorem walkCommands_append {visit visit' : LcVisit σ} (hagree : VisitorsAgree header visit visit')
    {stop : Nat} (hstop : stop ≤ header.length) (left offset : Nat) (hstart : headerSize ≤ offset)
    (hoffset : offset ≤ stop) (s : σ) :
    walkCommands (header ++ rest) visit' stop left offset s =
      walkCommands header visit stop left offset s := by
  induction left generalizing offset s with
  | zero => rfl
  | succ left ih =>
    rw [walkCommands, walkCommands]
    by_cases hroom : stop - offset < loadCommandSize
    · rw [if_pos hroom, if_pos hroom]
    · rw [if_neg hroom, if_neg hroom]
      rw [loadCommandSize] at hroom
      rw [readLE_append rest (by omega), readLE_append rest (by omega)]
      refine bind_congr fun cmd ↦ bind_congr fun cmdsize ↦ ?_
      split
      · rfl
      rename_i hsize
      split
      · rfl
      rename_i hfits
      rw [not_or, not_not, Nat.not_lt] at hsize
      have hinside : (LoadCommand.mk cmd offset cmdsize).Inside header.length :=
        ⟨hsize.1, hsize.2, hstart, by dsimp only; omega⟩
      have hvisit := hagree s _ hinside
      dsimp only at hvisit
      rw [hvisit]
      refine bind_congr fun r ↦ ?_
      obtain ⟨more, s'⟩ := r
      cases more with
      | false => rfl
      | true => exact ih (offset + cmdsize) (by omega) (by omega) s'

/-- **The walk over the header region** is the walk over the file. -/
theorem iterate_append {h : MachoHeader} (hread : readHeader header = some (.ok h))
    {visit visit' : LcVisit σ} (hagree : VisitorsAgree header visit visit') (s : σ) :
    iterateLoadCommands (header ++ rest) visit' s = iterateLoadCommands header visit s := by
  have hfits := (readHeader_safe header).of_eq hread h rfl
  rw [iterateLoadCommands, iterateLoadCommands, readHeader_append rest hread, hread]
  exact walkCommands_append rest hagree hfits _ _ (Nat.le_refl _) (Nat.le_add_right _ _) s

theorem takeRange_append {size place : Nat} (hplace : place + 8 ≤ size) (more : Bool) (s : DataCtx)
    {offset cmdsize : Nat} (h : offset + cmdsize ≤ header.length) :
    takeRange (header ++ rest) size place more s offset cmdsize =
      takeRange header size place more s offset cmdsize := by
  rw [takeRange, takeRange]
  split
  · rfl
  · rw [readLE_append rest (by omega), readLE_append rest (by omega)]

theorem exportTrieVisit_append :
    VisitorsAgree header (exportTrieVisit header) (exportTrieVisit (header ++ rest)) := by
  intro s c hc
  rw [exportTrieVisit, exportTrieVisit, takeRange_append rest (by decide) _ _ hc.inside,
    takeRange_append rest (by decide) _ _ hc.inside]

theorem linkeditDataVisit_append :
    VisitorsAgree header (linkeditDataVisit header) (linkeditDataVisit (header ++ rest)) := by
  intro s c hc
  rw [linkeditDataVisit, linkeditDataVisit, takeRange_append rest (by decide) _ _ hc.inside]

theorem dysymtabVisit_append :
    VisitorsAgree header (dysymtabVisit header) (dysymtabVisit (header ++ rest)) := by
  intro s c hc
  rw [dysymtabVisit, dysymtabVisit, takeRange_append rest (by decide) _ _ hc.inside]

theorem readSegment_append {offset cmdsize : Nat} (h : offset + cmdsize ≤ header.length) :
    readSegment (header ++ rest) offset cmdsize = readSegment header offset cmdsize := by
  rw [readSegment, readSegment]
  split
  · rfl
  · rename_i hsize
    rw [segmentCommandSize] at hsize
    rw [readAt_append rest (by omega)]
    iterate 8 rw [readLE_append rest (by omega)]

theorem findSegmentVisit_append (segname : List Byte) :
    VisitorsAgree header (findSegmentVisit header segname)
      (findSegmentVisit (header ++ rest) segname) := by
  intro s c hc
  rw [findSegmentVisit, findSegmentVisit, readSegment_append rest hc.inside]

variable {h : MachoHeader} (hread : readHeader header = some (.ok h))

include hread

theorem declaredRange_append {visit visit' : LcVisit DataCtx}
    (hagree : VisitorsAgree header visit visit') :
    declaredRange (header ++ rest) visit' = declaredRange header visit := by
  rw [declaredRange, declaredRange, iterate_append rest hread hagree]

theorem findSegment_append (segname : List Byte) :
    findSegment (header ++ rest) segname = findSegment header segname := by
  rw [findSegment, findSegment, iterate_append rest hread (findSegmentVisit_append rest segname)]

theorem findLoadCommand_append (cmd : Nat) :
    findLoadCommand (header ++ rest) cmd = findLoadCommand header cmd := by
  rw [findLoadCommand, findLoadCommand, iterate_append rest hread fun _ _ _ ↦ rfl]

theorem readSymtab_append : readSymtab (header ++ rest) = readSymtab header := by
  rw [readSymtab, readSymtab, findLoadCommand_append rest hread]
  obtain ⟨r, heq, hr⟩ := findLoadCommand_safe header lcSymtab
  rw [heq]
  cases r with
  | error status => rfl
  | ok found =>
    have hinside := hr found rfl
    rw [RangeInside] at hinside
    obtain ⟨offset, cmdsize⟩ := found
    simp only [Option.bind_eq_bind, Option.bind_some]
    split
    · rfl
    · rename_i hsize
      rw [symtabCommandSize] at hsize
      dsimp only at hinside
      iterate 4 rw [readLE_append rest (by omega)]

end Append

/-! ## Memory -/

/-- The memory of the process. -/
abbrev Memory := BitVec 64 → Byte

/-- The bytes stand in memory from an address on. -/
def Memory.Holds (mem : Memory) (a : BitVec 64) (bytes : List Byte) : Prop :=
  ∀ (i : Nat) (b : Byte), bytes[i]? = some b → mem (a + BitVec.ofNat 64 i) = b

/-- The same bytes stand at two addresses. -/
def Memory.Same (mem : Memory) (a b : BitVec 64) (len : Nat) : Prop :=
  ∀ k < len, mem (a + BitVec.ofNat 64 k) = mem (b + BitVec.ofNat 64 k)

/-- An image that is in memory twice: as the file at `base`, and as dyld maps it with a slide, the
bytes `header` in front and `seg` as its `__LINKEDIT`. -/
structure Loaded (mem : Memory) (base : BitVec 64) (header file : List Byte) (slide : BitVec 64)
    (seg : MachoSegment) : Prop where
  sized : file.length < 2 ^ 64
  front : ∃ rest, file = header ++ rest
  /-- The bytes in front reach to the end of the load commands. -/
  readable : ∃ h, readHeader header = some (.ok h)
  inMemory : mem.Holds base file
  linkedit : findSegment file linkeditName = some (.ok seg)
  order : seg.fileoff ≤ seg.vmaddr
  inFile : seg.fileoff + seg.filesize ≤ file.length
  mapped : mem.Holds (slide + BitVec.ofNat 64 seg.vmaddr)
    ((file.drop seg.fileoff).take seg.filesize)
  aligned : (slide + BitVec.ofNat 64 seg.vmaddr).toNat % nlistAlign = 0 ∧
    seg.fileoff % nlistAlign = 0

/-- A file range lies inside that of a segment. -/
def MachoSegment.Contains (seg : MachoSegment) (off len : Nat) : Prop :=
  seg.fileoff ≤ off ∧ off + len ≤ seg.fileoff + seg.filesize

/-- The address at which a segment maps a file offset. -/
def MachoSegment.addressOf (seg : MachoSegment) (slide : BitVec 64) (off : Nat) : BitVec 64 :=
  slide + BitVec.ofNat 64 (seg.vmaddr - seg.fileoff) + BitVec.ofNat 64 off

theorem mapping_some {seg : MachoSegment} {slide : BitVec 64} {m : LinkeditMapping}
    (h : seg.mapping slide = some m) : (∀ off, m.addressOf off = seg.addressOf slide off) ∧
      ∀ off len, m.holds off len = true ↔ seg.Contains off len := by
  rw [MachoSegment.mapping] at h
  split at h
  · cases h
  split at h
  · cases h
  cases h
  refine ⟨fun off ↦ rfl, fun off len ↦ ?_⟩
  rw [LinkeditMapping.holds, MachoSegment.Contains]
  dsimp only
  split
  · refine iff_of_false nofun fun h ↦ ?_
    omega
  · rw [decide_eq_true_eq]
    omega

/-- What `linkedit_mapping` answers for any header. -/
theorem linkeditMapping_ok {header : List Byte} {slide : BitVec 64} {m : LinkeditMapping}
    (h : linkeditMapping header slide = some (.ok m)) :
    ∃ seg, findSegment header linkeditName = some (.ok seg) ∧ seg.mapping slide = some m := by
  obtain ⟨r, heq, -⟩ := findSegment_safe header linkeditName
  rw [linkeditMapping, heq] at h
  cases r with
  | error status => cases h
  | ok seg =>
    simp only [Option.bind_eq_bind, Option.bind_some] at h
    split at h
    · cases h
    · rename_i m' hm
      cases h
      exact ⟨seg, heq, hm⟩

/-! ## Tables found either way -/

/-- Two symbol table views with the same contents. -/
structure SymbolTableView.Same (mem : Memory) (v v' : SymbolTableView) : Prop where
  nlistCount : v'.nlistCount = v.nlistCount
  nlist : mem.Same v.nlist v'.nlist (v.nlistCount * nlistSize)
  stringsSize : v'.stringsSize = v.stringsSize
  strings : mem.Same v.strings v'.strings v.stringsSize

/-- Two indirect symbol tables with the same contents. -/
def IndirectSame (mem : Memory) (i i' : BitVec 64 × Nat) : Prop :=
  i'.2 = i.2 ∧ mem.Same i.1 i'.1 (i.2 * 4)

/-- Import tables with the same contents. -/
structure ImportTables.Same (mem : Memory) (t t' : ImportTables) : Prop where
  symbols : Option.Rel (SymbolTableView.Same mem) t.symbols t'.symbols
  indirect : Option.Rel (IndirectSame mem) t.indirect t'.indirect

/-- What a lookup in the file and a lookup in memory answer when the table they look for is not
declared, and when it is declared inside `__LINKEDIT`. -/
structure RangeAgrees (mem : Memory) (base : BitVec 64) (seg : MachoSegment)
    (declared fromFile : Option (Except MachoStatus (Nat × Nat)))
    (loaded : Option (Except MachoStatus (BitVec 64 × Nat))) : Prop where
  absent : ∀ status, declared = some (.error status) →
    fromFile = some (.error status) ∧ loaded = some (.error status)
  present : ∀ off len, declared = some (.ok (off, len)) → seg.Contains off len →
    ∃ a, fromFile = some (.ok (off, len)) ∧ loaded = some (.ok (a, len)) ∧
      mem.Same (base + BitVec.ofNat 64 off) a len

/-- Two answers that name the same thing: where both find something it is the same, and from an
aligned buffer neither finds something alone. -/
structure AnswersAgree {α ι : Type} (same : α → α → Prop) (base : BitVec 64)
    (fromFile loaded : Option (Except ι α)) : Prop where
  contents : ∀ a a', fromFile = some (.ok a) → loaded = some (.ok a') → same a a'
  found : base.toNat % nlistAlign = 0 →
    ((∃ a, fromFile = some (.ok a)) ↔ ∃ a', loaded = some (.ok a'))

/-- The tables of the symbol table lie inside a segment. -/
def SymtabContained (file : List Byte) (seg : MachoSegment) : Prop :=
  ∀ r, readSymtab file = some (.ok r) →
    seg.Contains r.symoff (r.nsyms * nlistSize) ∧ seg.Contains r.stroff r.strsize

/-- The indirect symbol table lies inside a segment. -/
def IndirectContained (file : List Byte) (seg : MachoSegment) : Prop :=
  ∀ off count, findIndirectSymbols file = some (.ok (off, count)) → seg.Contains off (count * 4)

section Agree

variable {mem : Memory} {base slide : BitVec 64} {header file : List Byte} {seg : MachoSegment}

theorem Loaded.sameRange (h : Loaded mem base header file slide seg) {off len : Nat}
    (hin : seg.Contains off len) :
    mem.Same (base + BitVec.ofNat 64 off) (seg.addressOf slide off) len := by
  intro k hk
  obtain ⟨hlow, hhigh⟩ := hin
  have hinFile := h.inFile
  have hlt : off + k < file.length := by omega
  have hfile : mem (base + BitVec.ofNat 64 off + BitVec.ofNat 64 k) = file[off + k] := by
    rw [BitVec.add_assoc, ← BitVec.ofNat_add]
    exact h.inMemory _ _ (List.getElem?_eq_getElem hlt)
  have haddress : seg.addressOf slide off + BitVec.ofNat 64 k =
      slide + BitVec.ofNat 64 seg.vmaddr + BitVec.ofNat 64 (off - seg.fileoff + k) := by
    have horder := h.order
    rw [MachoSegment.addressOf, BitVec.add_assoc, BitVec.add_assoc, BitVec.add_assoc,
      ← BitVec.ofNat_add, ← BitVec.ofNat_add, ← BitVec.ofNat_add]
    congr 2
    omega
  rw [hfile, haddress]
  refine (h.mapped _ _ ?_).symm
  rw [List.getElem?_take_of_lt (by omega), List.getElem?_drop,
    show seg.fileoff + (off - seg.fileoff + k) = off + k by omega, List.getElem?_eq_getElem hlt]

theorem Loaded.mapping (h : Loaded mem base header file slide seg) :
    ∃ m, seg.mapping slide = some m := by
  have hsized := h.sized
  have hinFile := h.inFile
  have horder := h.order
  refine ⟨⟨slide + BitVec.ofNat 64 (seg.vmaddr - seg.fileoff), seg.fileoff,
    seg.fileoff + seg.filesize⟩, ?_⟩
  rw [MachoSegment.mapping, if_neg (by rw [uint64Max]; omega), if_neg (by omega)]

theorem Loaded.segment (h : Loaded mem base header file slide seg) :
    findSegment header linkeditName = some (.ok seg) := by
  obtain ⟨rest, rfl⟩ := h.front
  obtain ⟨hd, hread⟩ := h.readable
  rw [← findSegment_append rest hread]
  exact h.linkedit

theorem Loaded.linkeditMapping (h : Loaded mem base header file slide seg) :
    ∃ m, MachO.linkeditMapping header slide = some (.ok m) ∧ seg.mapping slide = some m := by
  obtain ⟨m, hm⟩ := h.mapping
  refine ⟨m, ?_, hm⟩
  rw [MachO.linkeditMapping, h.segment]
  simp only [Option.bind_eq_bind, Option.bind_some, hm]

theorem Loaded.readSymtab (h : Loaded mem base header file slide seg) :
    MachO.readSymtab file = MachO.readSymtab header := by
  obtain ⟨rest, rfl⟩ := h.front
  obtain ⟨hd, hread⟩ := h.readable
  exact readSymtab_append rest hread

/-- A range that is declared in the header. -/
theorem Loaded.rangeAgrees (h : Loaded mem base header file slide seg)
    (declared : Option (Except MachoStatus (Nat × Nat))) :
    RangeAgrees mem base seg declared (rangeInImage file declared)
      (rangeInLinkedit header slide declared) := by
  obtain ⟨m, hlinkedit, hm⟩ := h.linkeditMapping
  obtain ⟨haddress, hholds⟩ := mapping_some hm
  refine ⟨fun status hstatus ↦ ?_, fun off len hrange hin ↦ ⟨seg.addressOf slide off, ?_, ?_, ?_⟩⟩
  · rw [hstatus]
    exact ⟨rfl, rfl⟩
  · have hinFile := h.inFile
    have hfits := hin.2
    rw [hrange, rangeInImage]
    simp only [Option.bind_eq_bind, Option.bind_some]
    rw [if_neg]
    omega
  · rw [hrange, rangeInLinkedit, hlinkedit]
    simp only [Option.bind_eq_bind, Option.bind_some, (hholds off len).mpr hin, haddress,
      Bool.not_true, Bool.false_eq_true, if_false]
  · exact h.sameRange hin

theorem Loaded.alignment (h : Loaded mem base header file slide seg)
    (hbase : base.toNat % nlistAlign = 0) (off : Nat) :
    (base + BitVec.ofNat 64 off).toNat % nlistAlign = 0 ↔
      (seg.addressOf slide off).toNat % nlistAlign = 0 := by
  obtain ⟨haligned, hfileoff⟩ := h.aligned
  have horder := h.order
  have hsplit : slide + BitVec.ofNat 64 seg.vmaddr =
      slide + BitVec.ofNat 64 (seg.vmaddr - seg.fileoff) + BitVec.ofNat 64 seg.fileoff := by
    rw [BitVec.add_assoc, ← BitVec.ofNat_add, Nat.sub_add_cancel horder]
  rw [hsplit] at haligned
  rw [MachoSegment.addressOf]
  generalize slide + BitVec.ofNat 64 (seg.vmaddr - seg.fileoff) = x at haligned ⊢
  rw [BitVec.toNat_add, BitVec.toNat_ofNat, nlistAlign] at haligned ⊢
  rw [BitVec.toNat_add, BitVec.toNat_ofNat]
  rw [nlistAlign] at hbase hfileoff
  omega

/-- **The symbol table.** -/
theorem Loaded.symtabAgrees (h : Loaded mem base header file slide seg)
    (hin : SymtabContained file seg) :
    AnswersAgree (SymbolTableView.Same mem) base (findSymtabView base file)
        (symtabViewForLoadedImage header slide) ∧
      (∀ status, MachO.readSymtab file = some (.error status) →
        findSymtabView base file = some (.error status) ∧
          symtabViewForLoadedImage header slide = some (.error status)) ∧
      ∀ r, MachO.readSymtab file = some (.ok r) →
        findSymtabView base file ≠ some (.error .notFound) ∧
          symtabViewForLoadedImage header slide ≠ some (.error .notFound) := by
  obtain ⟨m, hlinkedit, hm⟩ := h.linkeditMapping
  obtain ⟨haddress, hholds⟩ := mapping_some hm
  obtain ⟨r, hread, -⟩ := readSymtab_safe file
  have hread' := h.readSymtab.symm.trans hread
  cases r with
  | error status =>
    have hfile : findSymtabView base file = some (.error status) := by
      rw [findSymtabView, hread]
      rfl
    have hloaded : symtabViewForLoadedImage header slide = some (.error status) := by
      rw [symtabViewForLoadedImage, hlinkedit, hread']
      rfl
    rw [hfile, hloaded, hread]
    refine ⟨⟨by simp, fun _ ↦ iff_of_false (by rintro ⟨_, ⟨⟩⟩) (by rintro ⟨_, ⟨⟩⟩)⟩,
      fun status' heq ↦ by cases heq; exact ⟨rfl, rfl⟩, by simp⟩
  | ok r =>
    obtain ⟨hsym, hstr⟩ := hin r hread
    have hinFile := h.inFile
    have hfits := hsym.2
    have hfits' := hstr.2
    have hfile : findSymtabView base file =
        if (base + BitVec.ofNat 64 r.symoff).toNat % nlistAlign ≠ 0 then some (.error .malformed)
        else some (.ok ⟨base + BitVec.ofNat 64 r.symoff, r.nsyms, base + BitVec.ofNat 64 r.stroff,
          r.strsize⟩) := by
      rw [findSymtabView, hread]
      simp only [Option.bind_eq_bind, Option.bind_some]
      rw [if_neg (by omega), if_neg (by omega)]
    have hloaded : symtabViewForLoadedImage header slide =
        if (seg.addressOf slide r.symoff).toNat % nlistAlign ≠ 0 then some (.error .malformed)
        else some (.ok ⟨seg.addressOf slide r.symoff, r.nsyms, seg.addressOf slide r.stroff,
          r.strsize⟩) := by
      rw [symtabViewForLoadedImage, hlinkedit, hread']
      simp only [Option.bind_eq_bind, Option.bind_some, (hholds _ _).mpr hsym,
        (hholds _ _).mpr hstr, haddress, Bool.not_true, Bool.false_eq_true, if_false]
    rw [hfile, hloaded, hread]
    refine ⟨⟨fun v v' hv hv' ↦ ?_, fun hbase ↦ ?_⟩, by simp, fun _ _ ↦ ⟨?_, ?_⟩⟩
    · split at hv
      · cases hv
      split at hv'
      · cases hv'
      cases hv
      cases hv'
      exact ⟨rfl, h.sameRange hsym, rfl, h.sameRange hstr⟩
    · have halign := h.alignment hbase r.symoff
      by_cases hmis : (base + BitVec.ofNat 64 r.symoff).toNat % nlistAlign = 0
      · rw [if_neg (not_not.mpr hmis), if_neg (not_not.mpr (halign.mp hmis))]
        exact iff_of_true ⟨_, rfl⟩ ⟨_, rfl⟩
      · rw [if_pos hmis, if_pos (mt halign.mpr hmis)]
    · split <;> simp
    · split <;> simp

/-- The indirect symbols, whatever the symbols are. -/
theorem Loaded.indirectAgrees (h : Loaded mem base header file slide seg)
    (hin : IndirectContained file seg) (symbols symbols' : Option SymbolTableView) :
    ∃ ind ind' : Except MachoStatus (Nat × Nat),
      findIndirectSymbols file = some ind ∧ findIndirectSymbols header = some ind' ∧
      let fromFile := importIndirect symbols ind (locateInImage base file)
      let loaded := importIndirect symbols' ind' (locateInLinkedit header slide)
      fromFile = some (.error .malformed) ∧ loaded = some (.error .malformed) ∨
        ∃ i i', fromFile = some (.ok ⟨i, symbols⟩) ∧ loaded = some (.ok ⟨i', symbols'⟩) ∧
          Option.Rel (IndirectSame mem) i i' := by
  obtain ⟨ind, hind, -⟩ := declaredRange_safe (dysymtabVisit_safe file)
  have hind' : findIndirectSymbols header = some ind := by
    obtain ⟨rest, rfl⟩ := h.front
    obtain ⟨hd, hread⟩ := h.readable
    rw [← hind]
    exact (declaredRange_append rest hread (dysymtabVisit_append rest)).symm
  refine ⟨ind, ind, hind, hind', ?_⟩
  cases ind with
  | error status =>
    cases status with
    | notFound => exact .inr ⟨none, none, rfl, rfl, .none⟩
    | _ => exact .inl ⟨rfl, rfl⟩
  | ok range =>
    obtain ⟨off, count⟩ := range
    obtain ⟨m, hm⟩ := h.mapping
    obtain ⟨haddress, hholds⟩ := mapping_some hm
    have hcontained := hin off count hind
    have hfits := hcontained.2
    have hinFile := h.inFile
    refine .inr ⟨some (base + BitVec.ofNat 64 off, count), some (seg.addressOf slide off, count),
      ?_, ?_, .some ⟨rfl, h.sameRange hcontained⟩⟩
    · rw [importIndirect, locateInImage, if_neg (by omega)]
      rfl
    · rw [importIndirect, locateInLinkedit, h.segment]
      simp only [Option.bind_eq_bind, Option.bind_some, hm, (hholds _ _).mpr hcontained, haddress,
        Bool.not_true, Bool.false_eq_true, if_false]

/-- **The import tables.** -/
theorem Loaded.importAgrees (h : Loaded mem base header file slide seg)
    (hin : SymtabContained file seg) (hindirect : IndirectContained file seg) :
    AnswersAgree (ImportTables.Same mem) base (importTablesFromFileImage base file)
      (importTablesFromLoadedImage header slide) := by
  obtain ⟨⟨hcontents, hfound⟩, habsent, hpresent⟩ := h.symtabAgrees hin
  -- with symbols that agree, everything does
  have hgo : ∀ symbols symbols', Option.Rel (SymbolTableView.Same mem) symbols symbols' →
      ∀ rf rl, findSymtabView base file = some rf →
        symtabViewForLoadedImage header slide = some rl →
      importSymbols rf = .ok symbols → importSymbols rl = .ok symbols' →
      AnswersAgree (ImportTables.Same mem) base (importTablesFromFileImage base file)
        (importTablesFromLoadedImage header slide) := by
    intro symbols symbols' hrel rf rl hrf hrl hs hs'
    obtain ⟨ind, ind', hind, hind', hcases⟩ := h.indirectAgrees hindirect symbols symbols'
    rw [importTablesFromFileImage, importTablesFromLoadedImage, hrf, hrl]
    simp only [Option.bind_eq_bind, Option.bind_some, hs, hs', hind, hind']
    rcases hcases with ⟨hfile, hloaded⟩ | ⟨i, i', hfile, hloaded, hi⟩
    · rw [hfile, hloaded]
      exact ⟨nofun, fun _ ↦ iff_of_false (by rintro ⟨_, ⟨⟩⟩) (by rintro ⟨_, ⟨⟩⟩)⟩
    · rw [hfile, hloaded]
      refine ⟨fun t t' ht ht' ↦ ?_, fun _ ↦ iff_of_true ⟨_, rfl⟩ ⟨_, rfl⟩⟩
      cases ht
      cases ht'
      exact ⟨hrel, hi⟩
  have hfail : ∀ e, findSymtabView base file = some (.error e) → e ≠ .notFound →
      importTablesFromFileImage base file = some (.error .malformed) := by
    intro e he hne
    rw [importTablesFromFileImage, he]
    cases e <;> first | rfl | exact absurd rfl hne
  have hfail' : ∀ e, symtabViewForLoadedImage header slide = some (.error e) → e ≠ .notFound →
      importTablesFromLoadedImage header slide = some (.error .malformed) := by
    intro e he hne
    rw [importTablesFromLoadedImage, he]
    cases e <;> first | rfl | exact absurd rfl hne
  obtain ⟨r, hread, -⟩ := readSymtab_safe file
  cases r with
  | error status =>
    obtain ⟨hfile, hloaded⟩ := habsent status hread
    by_cases hstatus : status = .notFound
    · subst hstatus
      exact hgo none none .none _ _ hfile hloaded rfl rfl
    · rw [hfail _ hfile hstatus, hfail' _ hloaded hstatus]
      exact ⟨nofun, fun _ ↦ iff_of_false (by rintro ⟨_, ⟨⟩⟩) (by rintro ⟨_, ⟨⟩⟩)⟩
  | ok r =>
    obtain ⟨hne, hne'⟩ := hpresent r hread
    obtain ⟨rf, hrf, -⟩ := findSymtabView_safe base file
    obtain ⟨m, hlinkedit, -⟩ := h.linkeditMapping
    have hloaded : ∃ rl, symtabViewForLoadedImage header slide = some rl := by
      rw [symtabViewForLoadedImage, hlinkedit, h.readSymtab.symm.trans hread]
      simp only [Option.bind_eq_bind, Option.bind_some]
      split
      · exact ⟨_, rfl⟩
      split
      · exact ⟨_, rfl⟩
      split <;> exact ⟨_, rfl⟩
    obtain ⟨rl, hrl⟩ := hloaded
    cases rf with
    | ok v =>
      cases rl with
      | ok v' => exact hgo _ _ (.some (hcontents v v' hrf hrl)) _ _ hrf hrl rfl rfl
      | error e' =>
        rw [hfail' e' hrl fun he ↦ hne' (he ▸ hrl)]
        refine ⟨nofun, fun hbase ↦ ?_⟩
        obtain ⟨v', hv'⟩ := (hfound hbase).mp ⟨v, hrf⟩
        cases hrl.symm.trans hv'
    | error e =>
      rw [hfail e hrf fun he ↦ hne (he ▸ hrf)]
      refine ⟨nofun, fun hbase ↦ ?_⟩
      cases rl with
      | ok v' =>
        obtain ⟨v, hv⟩ := (hfound hbase).mpr ⟨v', hrl⟩
        cases hrf.symm.trans hv
      | error e' => rw [hfail' e' hrl fun he ↦ hne' (he ▸ hrl)]

end Agree

/-! ## What is found in a loaded image -/

section Inside

variable {header : List Byte} {slide : BitVec 64}

theorem rangeInLinkedit_inside {declared : Option (Except MachoStatus (Nat × Nat))} {a : BitVec 64}
    {len : Nat} (h : rangeInLinkedit header slide declared = some (.ok (a, len))) :
    ∃ seg off, findSegment header linkeditName = some (.ok seg) ∧
      declared = some (.ok (off, len)) ∧ seg.Contains off len ∧ a = seg.addressOf slide off := by
  rw [rangeInLinkedit] at h
  cases declared with
  | none => cases h
  | some r =>
    cases r with
    | error status => cases h
    | ok range =>
      obtain ⟨off, len'⟩ := range
      simp only [Option.bind_eq_bind, Option.bind_some] at h
      obtain ⟨r, hlinkedit⟩ := Option.isSome_iff_exists.mp
        (Option.isSome_of_isSome_bind (by rw [h]; rfl))
      rw [hlinkedit] at h
      cases r with
      | error status => cases h
      | ok m =>
        simp only [Option.bind_some] at h
        split at h
        · cases h
        · rename_i hholds
          cases h
          obtain ⟨seg, hseg, hm⟩ := linkeditMapping_ok hlinkedit
          obtain ⟨haddress, hiff⟩ := mapping_some hm
          exact ⟨seg, off, hseg, rfl, (hiff _ _).mp (by simpa using hholds), haddress off⟩

theorem symtabViewForLoadedImage_inside {view : SymbolTableView}
    (h : symtabViewForLoadedImage header slide = some (.ok view)) :
    ∃ seg r, findSegment header linkeditName = some (.ok seg) ∧
      readSymtab header = some (.ok r) ∧ seg.Contains r.symoff (r.nsyms * nlistSize) ∧
        seg.Contains r.stroff r.strsize ∧ view = ⟨seg.addressOf slide r.symoff, r.nsyms,
          seg.addressOf slide r.stroff, r.strsize⟩ := by
  rw [symtabViewForLoadedImage] at h
  obtain ⟨r, hlinkedit⟩ := Option.isSome_iff_exists.mp
    (Option.isSome_of_isSome_bind (by rw [Option.bind_eq_bind] at h; rw [h]; rfl))
  rw [hlinkedit] at h
  cases r with
  | error status => cases h
  | ok m =>
    obtain ⟨seg, hseg, hm⟩ := linkeditMapping_ok hlinkedit
    obtain ⟨haddress, hiff⟩ := mapping_some hm
    obtain ⟨r, hread, -⟩ := readSymtab_safe header
    rw [hread] at h
    cases r with
    | error status => cases h
    | ok r =>
      simp only [Option.bind_eq_bind, Option.bind_some, haddress] at h
      split at h
      · cases h
      rename_i hsym
      split at h
      · cases h
      rename_i hstr
      split at h
      · cases h
      cases h
      exact ⟨seg, r, hseg, hread, (hiff _ _).mp (by simpa using hsym),
        (hiff _ _).mp (by simpa using hstr), rfl⟩

/-- The symbols among the import tables of a loaded image are its symbol table view. -/
theorem importTablesFromLoadedImage_inside {tables : ImportTables}
    (h : importTablesFromLoadedImage header slide = some (.ok tables)) :
    (∀ view, tables.symbols = some view →
        symtabViewForLoadedImage header slide = some (.ok view)) ∧
      ∀ a count, tables.indirect = some (a, count) → ∃ seg off,
        findSegment header linkeditName = some (.ok seg) ∧
          findIndirectSymbols header = some (.ok (off, count)) ∧ seg.Contains off (count * 4) ∧
          a = seg.addressOf slide off := by
  rw [importTablesFromLoadedImage] at h
  obtain ⟨rv, hview⟩ := Option.isSome_iff_exists.mp
    (Option.isSome_of_isSome_bind (by rw [Option.bind_eq_bind] at h; rw [h]; rfl))
  obtain ⟨ind, hind, -⟩ := declaredRange_safe (dysymtabVisit_safe header)
  have hind' : findIndirectSymbols header = some ind := hind
  rw [hview, hind'] at h
  simp only [Option.bind_eq_bind, Option.bind_some] at h
  cases hsymbols : importSymbols rv with
  | error status =>
    rw [hsymbols] at h
    cases h
  | ok symbols =>
    rw [hsymbols] at h
    dsimp only at h
    have hsym : ∀ view, symbols = some view → rv = .ok view := by
      intro view hv
      subst hv
      cases rv with
      | ok v =>
        cases hsymbols
        rfl
      | error e => cases e <;> cases hsymbols
    cases ind with
    | error status =>
      cases status <;> cases h
      exact ⟨fun view hv ↦ hview.trans (congrArg some (hsym view hv)), nofun⟩
    | ok range =>
      obtain ⟨off, count⟩ := range
      obtain ⟨r, hseg, -⟩ := findSegment_safe header linkeditName
      rw [importIndirect, locateInLinkedit, hseg] at h
      simp only [Option.bind_eq_bind, Option.bind_some] at h
      cases r with
      | error status =>
        cases status <;> cases h
        exact ⟨fun view hv ↦ hview.trans (congrArg some (hsym view hv)), nofun⟩
      | ok seg =>
        dsimp only at h
        cases hm : seg.mapping slide with
        | none =>
          rw [hm] at h
          cases h
        | some m =>
          obtain ⟨haddress, hiff⟩ := mapping_some hm
          rw [hm] at h
          dsimp only at h
          split at h
          · cases h
          · rename_i hholds
            cases h
            refine ⟨fun view hv ↦ hview.trans (congrArg some (hsym view hv)), fun a c hac ↦ ?_⟩
            cases hac
            exact ⟨seg, off, hseg, hind', (hiff _ _).mp (by simpa using hholds), haddress off⟩

end Inside

/-! ## Everything together -/

/-- The tables found in the file and in memory agree, each as soon as it lies inside
`__LINKEDIT`. -/
structure TablesAgree (mem : Memory) (base : BitVec 64) (header file : List Byte)
    (slide : BitVec 64) (seg : MachoSegment) : Prop where
  symtab : SymtabContained file seg → AnswersAgree (SymbolTableView.Same mem) base
    (findSymtabView base file) (symtabViewForLoadedImage header slide)
  exportTrie : RangeAgrees mem base seg (exportTrieFileRange file) (findExportTrie file)
    (exportTrieForLoadedImage header slide)
  chainedFixups : RangeAgrees mem base seg (chainedFixupsFileRange file) (findChainedFixups file)
    (chainedFixupsForLoadedImage header slide)
  imports : SymtabContained file seg → IndirectContained file seg →
    AnswersAgree (ImportTables.Same mem) base (importTablesFromFileImage base file)
      (importTablesFromLoadedImage header slide)

/-- What is found for the bytes in front of a loaded image is declared inside its `__LINKEDIT`, and
is where that maps it. -/
structure OnlyInside (header : List Byte) (slide : BitVec 64) : Prop where
  symtab : ∀ view, symtabViewForLoadedImage header slide = some (.ok view) →
    ∃ seg r, findSegment header linkeditName = some (.ok seg) ∧ readSymtab header = some (.ok r) ∧
      seg.Contains r.symoff (r.nsyms * nlistSize) ∧ seg.Contains r.stroff r.strsize ∧
        view = ⟨seg.addressOf slide r.symoff, r.nsyms, seg.addressOf slide r.stroff, r.strsize⟩
  exportTrie : ∀ a len, exportTrieForLoadedImage header slide = some (.ok (a, len)) →
    ∃ seg off, findSegment header linkeditName = some (.ok seg) ∧
      exportTrieFileRange header = some (.ok (off, len)) ∧ seg.Contains off len ∧
        a = seg.addressOf slide off
  chainedFixups : ∀ a len, chainedFixupsForLoadedImage header slide = some (.ok (a, len)) →
    ∃ seg off, findSegment header linkeditName = some (.ok seg) ∧
      chainedFixupsFileRange header = some (.ok (off, len)) ∧ seg.Contains off len ∧
        a = seg.addressOf slide off
  imports : ∀ tables, importTablesFromLoadedImage header slide = some (.ok tables) →
    (∀ view, tables.symbols = some view →
      symtabViewForLoadedImage header slide = some (.ok view)) ∧
    ∀ a count, tables.indirect = some (a, count) →
      ∃ seg off, findSegment header linkeditName = some (.ok seg) ∧
        findIndirectSymbols header = some (.ok (off, count)) ∧ seg.Contains off (count * 4) ∧
          a = seg.addressOf slide off

/-- **Loaded and file tables agree**, and no header makes a loaded lookup look outside
`__LINKEDIT`. -/
theorem loadedTables :
    (∀ (mem : Memory) (base : BitVec 64) (header file : List Byte) (slide : BitVec 64)
      (seg : MachoSegment), Loaded mem base header file slide seg →
        TablesAgree mem base header file slide seg) ∧
      ∀ (header : List Byte) (slide : BitVec 64), OnlyInside header slide := by
  refine ⟨fun mem base header file slide seg h ↦ ?_, fun header slide ↦ ?_⟩
  · have hdeclared : exportTrieFileRange file = exportTrieFileRange header ∧
        chainedFixupsFileRange file = chainedFixupsFileRange header := by
      obtain ⟨rest, rfl⟩ := h.front
      obtain ⟨hd, hread⟩ := h.readable
      exact ⟨declaredRange_append rest hread (exportTrieVisit_append rest),
        declaredRange_append rest hread (linkeditDataVisit_append rest)⟩
    constructor
    · exact fun hin ↦ (h.symtabAgrees hin).1
    · rw [findExportTrie, exportTrieForLoadedImage, ← hdeclared.1]
      exact h.rangeAgrees _
    · rw [findChainedFixups, chainedFixupsForLoadedImage, ← hdeclared.2]
      exact h.rangeAgrees _
    · exact h.importAgrees
  · exact ⟨fun _ ↦ symtabViewForLoadedImage_inside, fun _ _ ↦ rangeInLinkedit_inside,
      fun _ _ ↦ rangeInLinkedit_inside, fun _ ↦ importTablesFromLoadedImage_inside⟩

/-! ### An image in memory -/

/-- The memory with a file at `base`, of which the bytes from `fileoff` on stand at `mapped`,
too. -/
def memoryOf (file : List Byte) (base mapped : BitVec 64) (fileoff : Nat) : Memory := fun a ↦
  if a.toNat < mapped.toNat then file.getD (a.toNat - base.toNat) 0
  else file.getD (fileoff + (a.toNat - mapped.toNat)) 0

/-- The header and the load commands of an image with an export trie in its `__LINKEDIT`. -/
def trieHeader : List Byte :=
  littleEndian 4 mhMagic64 ++ littleEndian 4 0x0100000c ++ littleEndian 4 0 ++ littleEndian 4 6 ++
    littleEndian 4 2 ++ littleEndian 4 88 ++ littleEndian 4 0 ++ littleEndian 4 0 ++
    (littleEndian 4 lcSegment64 ++ littleEndian 4 72 ++ linkeditName ++ littleEndian 6 0 ++
      littleEndian 8 0x4000 ++ littleEndian 8 0x4000 ++ littleEndian 8 120 ++
      littleEndian 8 8 ++ littleEndian 4 1 ++ littleEndian 4 1 ++ littleEndian 4 0 ++
      littleEndian 4 0) ++
    (littleEndian 4 lcDyldExportsTrie ++ littleEndian 4 16 ++ littleEndian 4 120 ++
      littleEndian 4 8)

def trieFile : List Byte := trieHeader ++ littleEndian 8 0x0102030405060708

def trieLinkedit : MachoSegment := ⟨linkeditName, 0x4000, 0x4000, 120, 8, 1, 1, 0, 0, 32, 72⟩

theorem trieFile_length : trieFile.length = 128 := by decide +kernel

theorem trieFile_loaded : Loaded (memoryOf trieFile 0x1000#64 0xC000#64 120) 0x1000#64 trieHeader
    trieFile 0x8000#64 trieLinkedit where
  sized := by decide +kernel
  front := ⟨_, rfl⟩
  readable := ⟨⟨mhMagic64, 0x0100000c, 0, 6, 2, 88, 0⟩, by decide +kernel⟩
  inMemory i b hb := by
    obtain ⟨hlt, rfl⟩ := List.getElem?_eq_some_iff.mp hb
    have hi : i < 128 := hlt.trans_eq trieFile_length
    have haddr : (0x1000#64 + BitVec.ofNat 64 i).toNat = 0x1000 + i := by
      rw [BitVec.toNat_add, BitVec.toNat_ofNat, BitVec.toNat_ofNat]
      omega
    rw [memoryOf, haddr, if_pos (by rw [BitVec.toNat_ofNat]; omega), BitVec.toNat_ofNat,
      show 0x1000 + i - 0x1000 % 2 ^ 64 = i by omega, List.getD_eq_getElem _ _ hlt]
  linkedit := by decide +kernel
  order := by decide +kernel
  inFile := by decide +kernel
  mapped i b hb := by
    obtain ⟨hlt, rfl⟩ := List.getElem?_eq_some_iff.mp hb
    have hi : i < 8 := hlt.trans_eq (by decide +kernel)
    have haddr : (0x8000#64 + BitVec.ofNat 64 trieLinkedit.vmaddr + BitVec.ofNat 64 i).toNat =
        0xC000 + i := by
      rw [show 0x8000#64 + BitVec.ofNat 64 trieLinkedit.vmaddr = 0xC000#64 from rfl,
        BitVec.toNat_add, BitVec.toNat_ofNat, BitVec.toNat_ofNat]
      omega
    rw [memoryOf, haddr, if_neg (by rw [BitVec.toNat_ofNat]; omega), BitVec.toNat_ofNat,
      show 120 + (0xC000 + i - 0xC000 % 2 ^ 64) = 120 + i by omega, List.getElem_take,
      List.getElem_drop]
    exact List.getD_eq_getElem _ _ (by rw [trieFile_length]; omega)
  aligned := by decide +kernel

/-- The trie is found in memory, with the bytes it has in the file. -/
theorem trieFile_agrees : ∃ a,
    exportTrieForLoadedImage trieHeader 0x8000#64 = some (.ok (a, 8)) ∧
      (memoryOf trieFile 0x1000#64 0xC000#64 120).Same (0x1000#64 + BitVec.ofNat 64 120) a 8 := by
  obtain ⟨a, -, ha, hsame⟩ := (loadedTables.1 _ _ _ _ _ _ trieFile_loaded).exportTrie.present 120 8
    (by decide +kernel) ⟨by decide +kernel, by decide +kernel⟩
  exact ⟨a, ha, hsame⟩

end HookKit.MachO
