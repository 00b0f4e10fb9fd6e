import HookKit.Lib.Checked
import HookKit.Native.NlistScan

/-!
# Local symbols of the shared cache

The first half of `hk_symbols.c`: the symbols of cached images, read from a file of the cache.

* `parseCacheSymbols`, `bindCacheSymbols` — the check of the file, and the binding of one image;
  they are `none` where they read outside the file.
* `parseCacheSymbols_safe`, `bindCacheSymbols_safe` — they never do.
* `lookups_inside_iff` — the lookups of a bound image stay inside the tables exactly if the range of
  its entry does and the names in that range end inside the pool.  The check looks at the ranges of
  the first eight entries only, and at no name.
-/

set_option autoImplicit false

namespace HookKit.LocalSymbols

open LittleEndian Checked SymbolTable CachePatches NlistScan

/-! ## The file -/

/-- `struct hk_local_symbols_info`. -/
structure LocalSymbolsInfo where
  nlistOffset : Nat
  nlistCount : Nat
  stringsOffset : Nat
  stringsSize : Nat
  entriesOffset : Nat
  entriesCount : Nat

/-- `struct hk_cache_symbols`; pointers into the mapping are offsets from its start. -/
structure CacheSymbols where
  nlist : Nat
  nlistCount : Nat
  strings : Nat
  stringsSize : Nat
  entries : Nat
  entriesCount : Nat
  entryStride : Nat
deriving DecidableEq

/-- `sizeof(struct nlist_64)` and `sizeof(struct hk_local_symbols_info)`. -/
def sizeofNlist : Nat := 16
def sizeofLocalSymbolsInfo : Nat := 24

/-- The first bytes of a cache file. -/
def dyldMagic : List Byte := [0x64, 0x79, 0x6c, 0x64, 0x5f, 0x76, 0x31]

variable (map : List Byte)

/-- `entry_dylib_offset`. -/
def entryDylibOffset (entry stride : Nat) : Option Nat :=
  if stride = 16 then readLE 8 map entry else readLE 4 map entry

/-- `entry_nlist_start`. -/
def entryNlistStart (entry stride : Nat) : Option Nat :=
  readLE 4 map (entry + if stride = 16 then 8 else 4)

/-- `entry_nlist_count`. -/
def entryNlistCount (entry stride : Nat) : Option Nat :=
  readLE 4 map (entry + if stride = 16 then 12 else 8)

/-- The loop of `entries_plausible`, over the entries from `i` on. -/
def plausibleFrom (entries stride nlistTotal : Nat) : Nat → Nat → Option Bool
  | _, 0 => some true
  | i, left + 1 => do
    let start ← entryNlistStart map (entries + i * stride) stride
    let count ← entryNlistCount map (entries + i * stride) stride
    if start + count > nlistTotal then some false
    else plausibleFrom entries stride nlistTotal (i + 1) left

/-- `entries_plausible`. -/
def entriesPlausible (entries count stride nlistTotal available : Nat) : Option Bool :=
  if count = 0 ∨ count * stride > available then some false
  else plausibleFrom map entries stride nlistTotal 0 (if count < 8 then count else 8)

/-- `memcpy(&info, region, sizeof(info))`. -/
def readInfo (region : Nat) : Option LocalSymbolsInfo := do
  let nlistOffset ← readLE 4 map region
  let nlistCount ← readLE 4 map (region + 4)
  let stringsOffset ← readLE 4 map (region + 8)
  let stringsSize ← readLE 4 map (region + 12)
  let entriesOffset ← readLE 4 map (region + 16)
  let entriesCount ← readLE 4 map (region + 20)
  some ⟨nlistOffset, nlistCount, stringsOffset, stringsSize, entriesOffset, entriesCount⟩

/-- What `parse_cache_symbols` makes of the tables it has found. -/
def LocalSymbolsInfo.symbols (info : LocalSymbolsInfo) (region stride : Nat) : CacheSymbols :=
  ⟨region + info.nlistOffset, info.nlistCount, region + info.stringsOffset, info.stringsSize,
    region + info.entriesOffset, info.entriesCount, stride⟩

/-- The end of `parse_cache_symbols`: the choice between the two layouts of an entry. -/
def chooseStride (info : LocalSymbolsInfo) (region symsSize : Nat) :
    Option (Option CacheSymbols) := do
  let entries := region + info.entriesOffset
  let available := symsSize - info.entriesOffset
  if ← entriesPlausible map entries info.entriesCount 16 info.nlistCount available then
    some (some (info.symbols region 16))
  else if ← entriesPlausible map entries info.entriesCount 12 info.nlistCount available then
    some (some (info.symbols region 12))
  else some none

/-- `parse_cache_symbols`. -/
def parseCacheSymbols : Option (Option CacheSymbols) :=
  if map.length < 0x100 then some none
  else do
    let magic ← readAt 7 map 0
    if magic ≠ dyldMagic then some none
    else
      let mappingOffset ← readLE 4 map 16
      if mappingOffset < 88 then some none
      else
        let symsOffset ← readLE 8 map 72
        let symsSize ← readLE 8 map 80
        if symsOffset = 0 ∨ symsSize < sizeofLocalSymbolsInfo then some none
        else if symsOffset > map.length ∨ symsSize > map.length - symsOffset then some none
        else
          let info ← readInfo map symsOffset
          if info.nlistOffset + info.nlistCount * sizeofNlist > symsSize then some none
          else if info.stringsOffset + info.stringsSize > symsSize then some none
          else if info.entriesOffset > symsSize then some none
          else chooseStride map info symsOffset symsSize

/-! ## An image -/

/-- One entry of the table of symbols. -/
def readNlist (offset : Nat) : Option Nlist := do
  let strx ← readLE 4 map offset
  let type ← readLE 1 map (offset + 4)
  let sect ← readLE 1 map (offset + 5)
  let value ← readLE 8 map (offset + 8)
  some ⟨strx, BitVec.ofNat 8 type, sect, value⟩

/-- The table of symbols that the file declares. -/
def nlistTable (symbols : CacheSymbols) : Option (List Nlist) :=
  (List.range symbols.nlistCount).mapM fun i ↦ readNlist map (symbols.nlist + i * sizeofNlist)

/-- The pool of strings that the file declares. -/
def stringPool (symbols : CacheSymbols) : List Byte :=
  (map.drop symbols.strings).take symbols.stringsSize

/-- `bind_entry`. -/
def bindEntry (symbols : CacheSymbols) (entry : Nat) (image : Image) : Option Image := do
  let start ← entryNlistStart map entry symbols.entryStride
  let count ← entryNlistCount map entry symbols.entryStride
  let table ← nlistTable map symbols
  some { image with
    nlist := some (table.drop start), nlistCount := count,
    strings := some (stringPool map symbols) }

/-- `hk_cache_symbols.entry_index`: the offsets of the images with the numbers of their entries, as
`qsort` leaves them. -/
structure EntryIndex (symbols : CacheSymbols) where
  entries : List (Nat × Nat)
  perm : (entries.map fun e ↦ (some e.1, e.2)).Perm ((List.range symbols.entriesCount).map fun i ↦
    (entryDylibOffset map (symbols.entries + i * symbols.entryStride) symbols.entryStride, i))
  sorted : entries.Pairwise fun a b ↦ a.1 ≤ b.1

/-- The search in the index: the first place with an offset that is not smaller. -/
def bisect (index : List (Nat × Nat)) (dylibOffset lo hi : Nat) : Option Nat :=
  if lo < hi then
    match index[(lo + hi) / 2]? with
    | none => none
    | some e =>
      if e.1 < dylibOffset then bisect index dylibOffset ((lo + hi) / 2 + 1) hi
      else bisect index dylibOffset lo ((lo + hi) / 2)
  else some lo
termination_by hi - lo

/-- The loop of `bind_cache_symbols` without an index, from entry `i` on. -/
def bindFrom (symbols : CacheSymbols) (dylibOffset : Nat) (image : Image) :
    Nat → Nat → Option (Option Image)
  | _, 0 => some none
  | i, left + 1 => do
    let entry := symbols.entries + i * symbols.entryStride
    let offset ← entryDylibOffset map entry symbols.entryStride
    if offset ≠ dylibOffset then bindFrom symbols dylibOffset image (i + 1) left
    else do
      let bound ← bindEntry map symbols entry image
      some (some bound)

/-- `bind_cache_symbols`, for an image at an offset in the cache; there is no index if memory was
short when the file was opened. -/
def bindCacheSymbols (symbols : CacheSymbols) (index : Option (EntryIndex map symbols))
    (dylibOffset : Nat) (image : Image) : Option (Option Image) :=
  match index with
  | some index => do
    let lo ← bisect index.entries dylibOffset 0 index.entries.length
    match index.entries[lo]? with
    | none => some none
    | some e =>
      if e.1 = dylibOffset then do
        let bound ← bindEntry map symbols (symbols.entries + e.2 * symbols.entryStride) image
        some (some bound)
      else some none
  | none => bindFrom map symbols dylibOffset image 0 symbols.entriesCount

/-! ## The check of the file -/

variable {map}

/-- What the check of a file establishes. -/
structure Accepted (map : List Byte) (symbols : CacheSymbols) : Prop where
  nlist : symbols.nlist + symbols.nlistCount * sizeofNlist ≤ map.length
  strings : symbols.strings + symbols.stringsSize ≤ map.length
  entries : symbols.entries + symbols.entriesCount * symbols.entryStride ≤ map.length
  stride : symbols.entryStride = 16 ∨ symbols.entryStride = 12

theorem entryDylibOffset_safe {entry stride : Nat} (hstride : stride = 16 ∨ stride = 12)
    (h : entry + stride ≤ map.length) : Safe (entryDylibOffset map entry stride) fun _ ↦ True :=
  .ite (fun hs ↦ (Safe.read (by omega)).mono fun _ _ ↦ trivial)
    fun hs ↦ (Safe.read (by omega)).mono fun _ _ ↦ trivial

theorem entryNlistStart_safe {entry stride : Nat} (hstride : stride = 16 ∨ stride = 12)
    (h : entry + stride ≤ map.length) : Safe (entryNlistStart map entry stride) fun _ ↦ True :=
  (Safe.read (by split <;> omega)).mono fun _ _ ↦ trivial

theorem entryNlistCount_safe {entry stride : Nat} (hstride : stride = 16 ∨ stride = 12)
    (h : entry + stride ≤ map.length) : Safe (entryNlistCount map entry stride) fun _ ↦ True :=
  (Safe.read (by split <;> omega)).mono fun _ _ ↦ trivial

theorem plausibleFrom_safe {entries stride nlistTotal : Nat} (hstride : stride = 16 ∨ stride = 12)
    {i left : Nat} (h : entries + (i + left) * stride ≤ map.length) :
    Safe (plausibleFrom map entries stride nlistTotal i left) fun _ ↦ True := by
  induction left generalizing i with
  | zero => exact .some trivial
  | succ left ih =>
    have hentry : entries + i * stride + stride ≤ map.length := by
      have : (i + (left + 1)) * stride = i * stride + stride + left * stride := by ring
      omega
    refine (entryNlistStart_safe hstride hentry).bind fun start _ ↦ ?_
    refine (entryNlistCount_safe hstride hentry).bind fun count _ ↦ ?_
    exact .ite (fun _ ↦ .some trivial) fun _ ↦ ih (by rwa [Nat.add_right_comm, Nat.add_assoc])

theorem entriesPlausible_safe {entries count stride nlistTotal available : Nat}
    (hstride : stride = 16 ∨ stride = 12) (h : entries + available ≤ map.length) :
    Safe (entriesPlausible map entries count stride nlistTotal available)
      fun answer ↦ answer = true → count * stride ≤ available := by
  refine .ite (fun _ ↦ .some nofun) fun hcount ↦ ?_
  obtain ⟨-, hle⟩ := not_or.mp hcount
  refine (plausibleFrom_safe hstride ?_).mono fun _ _ _ ↦ not_lt.mp hle
  have hprobe : (if count < 8 then count else 8) ≤ count := by split <;> omega
  have := Nat.mul_le_mul_right stride hprobe
  rw [Nat.zero_add]
  omega

theorem readInfo_safe {region : Nat} (h : region + sizeofLocalSymbolsInfo ≤ map.length) :
    Safe (readInfo map region) fun _ ↦ True := by
  rw [sizeofLocalSymbolsInfo] at h
  refine (Safe.read (by omega)).bind fun _ _ ↦ (Safe.read (by omega)).bind fun _ _ ↦ ?_
  refine (Safe.read (by omega)).bind fun _ _ ↦ (Safe.read (by omega)).bind fun _ _ ↦ ?_
  exact (Safe.read (by omega)).bind fun _ _ ↦ (Safe.read (by omega)).bind fun _ _ ↦ .some trivial

theorem chooseStride_safe {info : LocalSymbolsInfo} {region symsSize : Nat}
    (hregion : region + symsSize ≤ map.length)
    (hnlist : info.nlistOffset + info.nlistCount * sizeofNlist ≤ symsSize)
    (hstrings : info.stringsOffset + info.stringsSize ≤ symsSize)
    (hentries : info.entriesOffset ≤ symsSize) :
    Safe (chooseStride map info region symsSize) fun r ↦ ∀ symbols, r = some symbols →
      Accepted map symbols := by
  have haccepted : ∀ stride, stride = 16 ∨ stride = 12 →
      info.entriesCount * stride ≤ symsSize - info.entriesOffset →
      Accepted map (info.symbols region stride) := by
    intro stride hstride hle
    refine ⟨?_, ?_, ?_, hstride⟩
    all_goals
      simp only [LocalSymbolsInfo.symbols]
      omega
  have hinside : region + info.entriesOffset +
      (symsSize - info.entriesOffset) ≤ map.length := by omega
  refine (entriesPlausible_safe (.inl rfl) hinside).bind fun answer hwide ↦ ?_
  refine .ite (fun h ↦ .some ?_) fun _ ↦ ?_
  · rintro _ ⟨⟩
    exact haccepted 16 (.inl rfl) (hwide h)
  · refine (entriesPlausible_safe (.inr rfl) hinside).bind fun answer hnarrow ↦ ?_
    refine .ite (fun h ↦ .some ?_) fun _ ↦ .some nofun
    rintro _ ⟨⟩
    exact haccepted 12 (.inr rfl) (hnarrow h)

/-- The check of the file reads inside the file, and what it accepts lies inside the file. -/
theorem parseCacheSymbols_safe (map : List Byte) :
    Safe (parseCacheSymbols map) fun r ↦ ∀ symbols, r = some symbols → Accepted map symbols := by
  refine .ite (fun _ ↦ .some nofun) fun hsize ↦ ?_
  refine (Safe.copy (by omega)).bind fun magic _ ↦ .ite (fun _ ↦ .some nofun) fun _ ↦ ?_
  refine (Safe.read (by omega)).bind fun mappingOffset _ ↦ .ite (fun _ ↦ .some nofun) fun _ ↦ ?_
  refine (Safe.read (by omega)).bind fun symsOffset _ ↦
    (Safe.read (by omega)).bind fun symsSize _ ↦ ?_
  refine .ite (fun _ ↦ .some nofun) fun hregion ↦ .ite (fun _ ↦ .some nofun) fun hinside ↦ ?_
  obtain ⟨hoffset, hlength⟩ := not_or.mp hinside
  have hend : symsOffset + symsSize ≤ map.length := by omega
  have hinfo : sizeofLocalSymbolsInfo ≤ symsSize := not_lt.mp (not_or.mp hregion).2
  refine (readInfo_safe (by omega)).bind fun info _ ↦ ?_
  refine .ite (fun _ ↦ .some nofun) fun hnlist ↦ .ite (fun _ ↦ .some nofun) fun hstrings ↦ ?_
  exact .ite (fun _ ↦ .some nofun) fun hentries ↦
    chooseStride_safe hend (not_lt.mp hnlist) (not_lt.mp hstrings) (not_lt.mp hentries)

/-! ## The binding of an image -/

section Bind

variable {symbols : CacheSymbols}

theorem readNlist_safe {offset : Nat} (h : offset + sizeofNlist ≤ map.length) :
    Safe (readNlist map offset) fun _ ↦ True := by
  rw [sizeofNlist] at h
  refine (Safe.read (by omega)).bind fun _ _ ↦ (Safe.read (by omega)).bind fun _ _ ↦ ?_
  exact (Safe.read (by omega)).bind fun _ _ ↦ (Safe.read (by omega)).bind fun _ _ ↦ .some trivial

theorem nlistTable_safe (h : Accepted map symbols) :
    Safe (nlistTable map symbols) fun table ↦ table.length = symbols.nlistCount := by
  have hread : ∀ i ∈ List.range symbols.nlistCount,
      Safe (readNlist map (symbols.nlist + i * sizeofNlist)) fun _ ↦ True := by
    intro i hi
    have hle := Nat.mul_le_mul_right sizeofNlist (List.mem_range.mp hi)
    have hend := h.nlist
    rw [Nat.succ_mul] at hle
    exact readNlist_safe (by omega)
  exact (Safe.mapM hread).mono fun table ⟨hlength, _⟩ ↦ hlength.trans List.length_range

/-- The entry with a number. -/
def CacheSymbols.entry (symbols : CacheSymbols) (i : Nat) : Nat :=
  symbols.entries + i * symbols.entryStride

/-- The image has the part of the table that an entry gives it, and the pool. -/
def BoundTo (map : List Byte) (symbols : CacheSymbols) (entry : Nat) (image : Image) : Prop :=
  ∃ start count table, entryNlistStart map entry symbols.entryStride = some start ∧
    entryNlistCount map entry symbols.entryStride = some count ∧
    nlistTable map symbols = some table ∧ table.length = symbols.nlistCount ∧
    image.nlist = some (table.drop start) ∧ image.nlistCount = count ∧
    image.strings = some (stringPool map symbols)

theorem Accepted.entry_le (h : Accepted map symbols) {i : Nat} (hi : i < symbols.entriesCount) :
    symbols.entry i + symbols.entryStride ≤ map.length := by
  have hle := Nat.mul_le_mul_right symbols.entryStride hi
  have hend := h.entries
  rw [Nat.succ_mul] at hle
  rw [CacheSymbols.entry]
  omega

theorem bindEntry_safe (h : Accepted map symbols) {i : Nat} (hi : i < symbols.entriesCount)
    (image : Image) : Safe (bindEntry map symbols (symbols.entry i) image)
      (BoundTo map symbols (symbols.entry i)) := by
  have hentry := h.entry_le hi
  refine (entryNlistStart_safe h.stride hentry).step fun start hstart _ ↦ ?_
  refine (entryNlistCount_safe h.stride hentry).step fun count hcount _ ↦ ?_
  refine (nlistTable_safe h).step fun table htable hlength ↦ .some ?_
  exact ⟨start, count, table, hstart, hcount, htable, hlength, rfl, rfl, rfl⟩

/-- A bound image has what the entry for its offset gives it. -/
def BoundAt (map : List Byte) (symbols : CacheSymbols) (dylibOffset : Nat) (image : Image) : Prop :=
  ∃ i < symbols.entriesCount,
    entryDylibOffset map (symbols.entry i) symbols.entryStride = some dylibOffset ∧
      BoundTo map symbols (symbols.entry i) image

theorem bindFrom_safe (h : Accepted map symbols) (dylibOffset : Nat) (image : Image) {i left : Nat}
    (hleft : i + left = symbols.entriesCount) :
    Safe (bindFrom map symbols dylibOffset image i left) fun r ↦ ∀ bound, r = some bound →
      BoundAt map symbols dylibOffset bound := by
  induction left generalizing i with
  | zero => exact .some nofun
  | succ left ih =>
    have hi : i < symbols.entriesCount := by omega
    refine (entryDylibOffset_safe h.stride (h.entry_le hi)).step fun offset hoffset _ ↦ ?_
    refine .ite (fun _ ↦ ih (by omega)) fun heq ↦ ?_
    refine (bindEntry_safe h hi image).bind fun bound hbound ↦ .some ?_
    rintro _ ⟨⟩
    exact ⟨i, hi, hoffset.trans (congrArg some (not_not.mp heq)), hbound⟩

theorem bisect_safe (index : List (Nat × Nat)) (dylibOffset lo hi : Nat) (h : hi ≤ index.length) :
    Safe (bisect index dylibOffset lo hi) fun _ ↦ True := by
  induction lo, hi using bisect.induct index dylibOffset with
  | case1 lo hi hlt hnone =>
    rw [List.getElem?_eq_none_iff] at hnone
    omega
  | case2 lo hi hlt e he hless ih =>
    rw [bisect, if_pos hlt, he]
    simp only [if_pos hless]
    exact ih h
  | case3 lo hi hlt e he hless ih =>
    rw [bisect, if_pos hlt, he]
    simp only [if_neg hless]
    exact ih (by omega)
  | case4 lo hi hge =>
    rw [bisect, if_neg hge]
    exact .some trivial

/-- What the index says of an entry is what the file says. -/
theorem EntryIndex.mem (index : EntryIndex map symbols) {e : Nat × Nat} (he : e ∈ index.entries) :
    e.2 < symbols.entriesCount ∧
      entryDylibOffset map (symbols.entry e.2) symbols.entryStride = some e.1 := by
  have hmem := index.perm.subset (List.mem_map_of_mem he)
  obtain ⟨i, hi, heq⟩ := List.mem_map.mp hmem
  obtain ⟨hoffset, rfl⟩ := Prod.mk.inj heq
  exact ⟨List.mem_range.mp hi, hoffset⟩

/-- Binding an image reads inside the file. -/
theorem bindCacheSymbols_safe (h : Accepted map symbols) (index : Option (EntryIndex map symbols))
    (dylibOffset : Nat) (image : Image) :
    Safe (bindCacheSymbols map symbols index dylibOffset image) fun r ↦ ∀ bound, r = some bound →
      BoundAt map symbols dylibOffset bound := by
  cases index with
  | none => exact bindFrom_safe h dylibOffset image (Nat.zero_add _)
  | some index =>
    refine (bisect_safe index.entries dylibOffset 0 _ le_rfl).bind fun lo _ ↦ ?_
    cases he : index.entries[lo]? with
    | none => exact .some nofun
    | some e =>
      obtain ⟨hi, hoffset⟩ := index.mem (List.mem_of_getElem? he)
      refine .ite (fun heq ↦ ?_) fun _ ↦ .some nofun
      refine (bindEntry_safe h hi image).bind fun bound hbound ↦ .some ?_
      rintro _ ⟨⟩
      exact ⟨e.2, hi, hoffset.trans (congrArg some heq), hbound⟩

end Bind

/-! ## The lookups -/

section Lookups

variable {pac : Pac} {image : Image} {strings : List Byte}

/-- The string of an entry ends inside the pool. -/
def Terminated (strings : List Byte) (e : Nlist) : Prop := 0#8 ∈ strings.drop e.strx

instance (e : Nlist) : Decidable (Terminated strings e) := inferInstanceAs (Decidable (_ ∈ _))

theorem Terminated.not_runsOff {e : Nlist} (h : Terminated strings e) (name : SymbolName) :
    ¬ RunsOff strings name.text e.strx := by
  rintro (hpre | ⟨hunder, hpre⟩)
  · exact name.no_nul (hpre.subset h)
  · obtain ⟨hlt, hget⟩ := List.getElem?_eq_some_iff.mp hunder
    rw [Terminated, List.drop_eq_getElem_cons hlt, hget] at h
    rcases List.mem_cons.mp h with h | h
    · exact absurd h (by decide)
    · exact name.no_nul (hpre.subset h)

theorem findNlistFrom_inside (name : SymbolName) {nlist : List Nlist} {count : Nat}
    (hcount : count ≤ nlist.length)
    (hterminated : ∀ e ∈ nlist.take count, Candidate strings e → Terminated strings e) :
    findNlistFrom pac image strings name.text nlist count ≠ none := by
  induction nlist generalizing count with
  | nil => cases Nat.le_zero.mp hcount; exact nofun
  | cons e rest ih =>
    cases count with
    | zero => exact nofun
    | succ count =>
      rw [findNlistFrom_cons]
      split
      · rename_i hstops
        have hend : Terminated strings e := hterminated e (by simp) hstops.1
        rw [if_neg (hend.not_runsOff name)]
        exact nofun
      · exact ih (Nat.le_of_succ_le_succ hcount) fun d hd ↦ hterminated d (by simp [hd])

/-- A name that is longer than the pool is not found in it. -/
theorem not_spells_of_long {name : SymbolName}
    (hlong : strings.length < name.text.length) (e : Nlist) :
    ¬ Spells strings name e := by
  have hshort : ∀ offset, boundedStringEquals strings offset name.text = false := by
    intro offset
    rw [boundedStringEquals_eq]
    by_contra h
    have hmem := mem_nul_of_boundedEquals (by simpa using h)
    rw [List.drop_drop, List.drop_eq_nil_of_le (by omega)] at hmem
    cases hmem
  simp [Spells, nameMatches, hshort]

/-- A scan for such a name leaves the pool at the first string without an end, and the table behind
its last entry. -/
theorem findNlistFrom_outside {name : SymbolName} (hlong : strings.length < name.text.length)
    {nlist : List Nlist} {count : Nat}
    (h : nlist.length < count ∨ ∃ e ∈ nlist.take count, Candidate strings e ∧
      RunsOff strings name.text e.strx) :
    findNlistFrom pac image strings name.text nlist count = none := by
  induction nlist generalizing count with
  | nil =>
    cases count with
    | zero => rcases h with h | ⟨e, he, -⟩ <;> simp_all
    | succ count => rfl
  | cons e rest ih =>
    cases count with
    | zero => rcases h with h | ⟨e, he, -⟩ <;> simp_all
    | succ count =>
      rw [findNlistFrom_cons]
      split
      · rename_i hstops
        exact if_pos (hstops.2.resolve_right (not_spells_of_long hlong e))
      · rename_i hpasses
        refine ih (h.imp Nat.lt_of_succ_lt_succ ?_)
        rintro ⟨d, hd, hcandidate, hruns⟩
        rcases List.mem_cons.mp (List.take_succ_cons ▸ hd) with rfl | hd
        · exact absurd ⟨hcandidate, .inl hruns⟩ hpasses
        · exact ⟨d, hd, hcandidate, hruns⟩

/-- The bytes, and more letters than the pool has. -/
def longName (bytes : List Byte) (hbytes : 0#8 ∉ bytes) (length : Nat) : SymbolName where
  text := bytes ++ List.replicate (length + 1) 0x78#8
  ne_nil := by simp
  no_nul := by
    intro h
    rcases List.mem_append.mp h with h | h
    · exact hbytes h
    · exact absurd (List.eq_of_mem_replicate h) (by decide)

theorem longName_length (bytes : List Byte) (hbytes : 0#8 ∉ bytes) (length : Nat) :
    length < (longName bytes hbytes length).text.length := by
  simp [longName]
  omega

/-- The entries of the image lie in the table, and the names among them end inside the pool. -/
def Inside (image : Image) : Prop :=
  ∀ nlist strings, image.nlist = some nlist → image.strings = some strings →
    image.nlistCount ≤ nlist.length ∧
      ∀ e ∈ nlist.take image.nlistCount, Candidate strings e → Terminated strings e

/-- The lookups of an image stay inside exactly if its part of the tables does. -/
theorem findNlistSymbol_inside_iff (pac : Pac) (image : Image) :
    (∀ name : SymbolName, findNlistSymbol pac image name.text ≠ none) ↔ Inside image := by
  constructor
  · intro h nlist strings hnlist hstrings
    have hscan : ∀ name : SymbolName,
        findNlistFrom pac image strings name.text nlist image.nlistCount ≠ none := by
      intro name
      have := h name
      rwa [findNlistSymbol, hnlist, hstrings] at this
    refine ⟨not_lt.mp fun hlt ↦ ?_, fun e he hcandidate ↦ by_contra fun hopen ↦ ?_⟩
    · exact hscan (longName [] (by simp) strings.length)
        (findNlistFrom_outside (longName_length _ _ _) (.inl hlt))
    · exact hscan (longName (strings.drop e.strx) hopen strings.length)
        (findNlistFrom_outside (longName_length _ _ _)
          (.inr ⟨e, he, hcandidate, .inl (List.prefix_append _ _)⟩))
  · intro h name
    rw [findNlistSymbol]
    split
    · rename_i nlist strings hnlist hstrings
      obtain ⟨hcount, hterminated⟩ := h nlist strings hnlist hstrings
      exact findNlistFrom_inside name hcount hterminated
    · simp

/-- The range of an entry lies inside the table of the file, and the names in it end inside the
pool. -/
def EntryInside (map : List Byte) (symbols : CacheSymbols) (entry : Nat) : Prop :=
  ∀ start count table, entryNlistStart map entry symbols.entryStride = some start →
    entryNlistCount map entry symbols.entryStride = some count →
      nlistTable map symbols = some table →
    count ≤ symbols.nlistCount - start ∧
      ∀ e ∈ (table.drop start).take count, Candidate (stringPool map symbols) e →
        Terminated (stringPool map symbols) e

theorem BoundTo.inside_iff {symbols : CacheSymbols} {entry : Nat}
    (h : BoundTo map symbols entry image) : Inside image ↔ EntryInside map symbols entry := by
  obtain ⟨start, count, table, hstart, hcount, htable, hlength, hnlist, himage, hstrings⟩ := h
  constructor
  · intro hinside start' count' table' hstart' hcount' htable'
    cases hstart.symm.trans hstart'
    cases hcount.symm.trans hcount'
    cases htable.symm.trans htable'
    have hparts := hinside _ _ hnlist hstrings
    rwa [himage, List.length_drop, hlength] at hparts
  · intro hinside nlist strings hnlist' hstrings'
    cases hnlist.symm.trans hnlist'
    cases hstrings.symm.trans hstrings'
    rw [himage, List.length_drop, hlength]
    exact hinside start count table hstart hcount htable

/-- **Of a file that is accepted, the lookups of an image stay inside the tables exactly if the
range of its entry lies inside the table and the names in that range end inside the pool.** -/
theorem lookups_inside_iff (pac : Pac) {symbols : CacheSymbols}
    (hparse : parseCacheSymbols map = some (some symbols)) (index : Option (EntryIndex map symbols))
    (dylibOffset : Nat) (image : Image) :
    ∃ answer, bindCacheSymbols map symbols index dylibOffset image = some answer ∧
      ∀ bound, answer = some bound → ∃ i < symbols.entriesCount,
        entryDylibOffset map (symbols.entry i) symbols.entryStride = some dylibOffset ∧
        ((∀ name : SymbolName, findNlistSymbol pac bound name.text ≠ none) ↔
          EntryInside map symbols (symbols.entry i)) := by
  have haccepted : Accepted map symbols := (parseCacheSymbols_safe map).of_eq hparse symbols rfl
  refine (bindCacheSymbols_safe haccepted index dylibOffset image).mono
    fun answer h bound hbound ↦ ?_
  obtain ⟨i, hi, hoffset, hto⟩ := h bound hbound
  exact ⟨i, hi, hoffset, (findNlistSymbol_inside_iff pac bound).trans hto.inside_iff⟩

/-- A file without symbols and with nine entries, of which the last one has a symbol. -/
def nineEntries : List Byte :=
  dyldMagic ++ List.replicate 9 0 ++ littleEndian 4 0x88 ++ List.replicate 52 0 ++
    littleEndian 8 0x100 ++ littleEndian 8 168 ++ List.replicate 168 0 ++
    littleEndian 4 24 ++ littleEndian 4 0 ++ littleEndian 4 24 ++ littleEndian 4 0 ++
    littleEndian 4 24 ++ littleEndian 4 9 ++
    List.replicate 128 0 ++ littleEndian 8 0x4000 ++ littleEndian 4 0 ++ littleEndian 4 1

/-- An image before it is bound. -/
def Image.unbound : Image := ⟨0, none, 0, none, []⟩

theorem lookups_inside_iff_nineEntries :
    ∃ answer, bindCacheSymbols nineEntries ⟨280, 0, 280, 0, 280, 9, 16⟩ none 0x4000 Image.unbound =
        some answer ∧
      ∀ bound, answer = some bound → ∃ i < 9,
        entryDylibOffset nineEntries (CacheSymbols.entry ⟨280, 0, 280, 0, 280, 9, 16⟩ i) 16 =
          some 0x4000 ∧
        ((∀ name : SymbolName, findNlistSymbol .plain bound name.text ≠ none) ↔
          EntryInside nineEntries ⟨280, 0, 280, 0, 280, 9, 16⟩
            (CacheSymbols.entry ⟨280, 0, 280, 0, 280, 9, 16⟩ i)) :=
  lookups_inside_iff .plain (by decide +kernel) none 0x4000 Image.unbound

/-- The check does not look at the ninth entry, and the lookup reads behind the empty table. -/
theorem ninth_entry_outside :
    ∃ symbols bound, parseCacheSymbols nineEntries = some (some symbols) ∧
      bindCacheSymbols nineEntries symbols none 0x4000 Image.unbound = some (some bound) ∧
      findNlistSymbol .plain bound nameF.text = none :=
  ⟨⟨280, 0, 280, 0, 280, 9, 16⟩, ⟨0, some [], 1, some [], []⟩, by decide +kernel, by decide +kernel,
    by decide⟩

end Lookups

end HookKit.LocalSymbols
