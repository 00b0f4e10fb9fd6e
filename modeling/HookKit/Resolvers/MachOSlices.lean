import HookKit.Lib.BigEndian
import HookKit.Resolvers.MachOWalk

/-!
# The slice of a file

`hk_macho_select_slice`: the thin Mach-O of a type that a file is, or holds in its fat table.

* `Thin`, `FatTable`, `FirstOfType`, `Slice` — what a file is, said from its bytes alone.
* `selectSlice_spec` — the function finds the slice of a file, if it has one, and reads nothing
  outside of it.
-/

set_option autoImplicit false

namespace HookKit.MachO

open LittleEndian BigEndian Checked

/-! ## The function -/

/-- `HK_FAT_MAGIC_64`. -/
def fatMagic64 : Nat := 0xcafebabf

/-- `read_be32`. -/
def readBe32 (bytes : List Byte) (p : Nat) : Option Nat := do
  let b0 ← bytes[p]?
  let b1 ← bytes[p + 1]?
  let b2 ← bytes[p + 2]?
  let b3 ← bytes[p + 3]?
  some (b0.toNat <<< 24 ||| b1.toNat <<< 16 ||| b2.toNat <<< 8 ||| b3.toNat)

/-- `read_be64`. -/
def readBe64 (bytes : List Byte) (p : Nat) : Option Nat := do
  let high ← readBe32 bytes p
  let low ← readBe32 bytes (p + 4)
  some (high <<< 32 ||| low)

/-- The size of an entry of the fat table. -/
def archStride (fat64 : Bool) : Nat := if fat64 then 32 else 20

/-- The offset and the size that an entry gives. -/
def archRange (file : List Byte) (fat64 : Bool) (arch : Nat) : Option (Nat × Nat) := do
  let offset ← if fat64 then readBe64 file (arch + 8) else readBe32 file (arch + 8)
  let size ← if fat64 then readBe64 file (arch + 16) else readBe32 file (arch + 12)
  some (offset, size)

/-- The loop of `hk_macho_select_slice` over the entries from `i` on; `left` counts them. -/
def selectArch (file : List Byte) (cputype cpusubtype : Nat) (fat64 : Bool) :
    Nat → Nat → Option (Except MachoStatus (Nat × Nat))
  | 0, _ => some (.error .notFound)
  | left + 1, i => do
    let arch := 8 + i * archStride fat64
    let entryType ← readBe32 file arch
    let entrySubtype ← readBe32 file (arch + 4)
    if entryType ≠ cputype ∨ entrySubtype ≠ cpusubtype then
      selectArch file cputype cpusubtype fat64 left (i + 1)
    else do
      let (offset, size) ← archRange file fat64 arch
      if offset > file.length ∨ size > file.length - offset then some (.error .malformed)
      else
        match ← readHeader ((file.drop offset).take size) with
        | .error _ => some (.error .malformed)
        | .ok selected =>
          if selected.cputype ≠ cputype ∨ selected.cpusubtype ≠ cpusubtype then
            some (.error .malformed)
          else some (.ok (offset, size))

/-- `hk_macho_select_slice`: the offset and the size of the slice. -/
def selectSlice (file : List Byte) (cputype cpusubtype : Nat) :
    Option (Except MachoStatus (Nat × Nat)) :=
  if file.length < 4 then some (.error .tooSmall)
  else do
    match ← readHeader file with
    | .ok thin =>
      if thin.cputype ≠ cputype ∨ thin.cpusubtype ≠ cpusubtype then some (.error .notFound)
      else some (.ok (0, file.length))
    | .error thinStatus =>
      let magic ← readBe32 file 0
      let fat64 := magic == fatMagic64
      if magic ≠ fatMagic ∧ !fat64 then some (.error thinStatus)
      else if file.length < 8 then some (.error .malformed)
      else do
        let count ← readBe32 file 4
        if count * archStride fat64 > file.length - 8 then some (.error .malformed)
        else selectArch file cputype cpusubtype fat64 count 0

/-! ## What a file is -/

/-- A thin little-endian 64-bit Mach-O of a type, with its load commands inside the bytes. -/
structure Thin (image : List Byte) (cputype cpusubtype : Nat) : Prop where
  magic : readLE 4 image 0 = some mhMagic64
  cputype : readLE 4 image 4 = some cputype
  cpusubtype : readLE 4 image 8 = some cpusubtype
  commands : ∃ sizeofcmds, readLE 4 image 20 = some sizeofcmds ∧
    headerSize + sizeofcmds ≤ image.length

/-- The two forms of a fat table: the magic, the size of an entry, and the width of its numbers. -/
structure FatFormat where
  magic : Nat
  stride : Nat
  width : Nat

def FatFormat.narrow : FatFormat := ⟨fatMagic, 20, 4⟩
def FatFormat.wide : FatFormat := ⟨fatMagic64, 32, 8⟩

/-- The file starts with a fat table of `count` entries. -/
structure FatTable (file : List Byte) (format : FatFormat) (count : Nat) : Prop where
  known : format = .narrow ∨ format = .wide
  magic : readBE 4 file 0 = some format.magic
  counted : readBE 4 file 4 = some count
  inside : 8 + count * format.stride ≤ file.length

/-- Entry `i` of a fat table is for a type. -/
def EntryOfType (file : List Byte) (format : FatFormat) (cputype cpusubtype i : Nat) : Prop :=
  readBE 4 file (8 + i * format.stride) = some cputype ∧
    readBE 4 file (8 + i * format.stride + 4) = some cpusubtype

/-- Entry `i` is the first one for a type. -/
structure FirstOfType (file : List Byte) (format : FatFormat) (count cputype cpusubtype i : Nat) :
    Prop where
  lt : i < count
  matched : EntryOfType file format cputype cpusubtype i
  first : ∀ j < i, ¬ EntryOfType file format cputype cpusubtype j

/-- The range that an entry gives. -/
def EntryRange (file : List Byte) (format : FatFormat) (i offset size : Nat) : Prop :=
  readBE format.width file (8 + i * format.stride + 8) = some offset ∧
    readBE format.width file (8 + i * format.stride + 8 + format.width) = some size

/-- The first entry of a table for a type gives this range, which is in the file and holds a thin
Mach-O of the type. -/
def TableSlice (file : List Byte) (format : FatFormat)
    (count cputype cpusubtype offset size : Nat) :
    Prop :=
  ∃ i, FirstOfType file format count cputype cpusubtype i ∧ EntryRange file format i offset size ∧
    offset + size ≤ file.length ∧ Thin ((file.drop offset).take size) cputype cpusubtype

/-- The file starts with a fat table, which gives this slice. -/
def FatSlice (file : List Byte) (cputype cpusubtype offset size : Nat) : Prop :=
  ∃ format count, FatTable file format count ∧
    TableSlice file format count cputype cpusubtype offset size

/-- The slice of a file for a type. -/
def Slice (file : List Byte) (cputype cpusubtype offset size : Nat) : Prop :=
  Thin file cputype cpusubtype ∧ offset = 0 ∧ size = file.length ∨
    FatSlice file cputype cpusubtype offset size

/-! ## Reading numbers -/

/-- A byte joins the bytes above it. -/
theorem or_byte (x k : Nat) (b : Byte) :
    x <<< (8 + k) ||| b.toNat <<< k = (x * 256 + b.toNat) <<< k := by
  rw [Nat.shiftLeft_add, ← Nat.shiftLeft_or_distrib, ← Nat.shiftLeft_add_eq_or_of_lt b.isLt x,
    Nat.shiftLeft_eq x 8]

theorem readBe32_eq (bytes : List Byte) (p : Nat) : readBe32 bytes p = readBE 4 bytes p := by
  simp only [readBe32, readBE, Nat.add_assoc, Nat.reduceAdd]
  cases bytes[p]? with
  | none => rfl
  | some b0 =>
    cases bytes[p + 1]? with
    | none => rfl
    | some b1 =>
      cases bytes[p + 2]? with
      | none => rfl
      | some b2 =>
        cases bytes[p + 3]? with
        | none => rfl
        | some b3 =>
          have hlast := or_byte (((b0.toNat * 256) + b1.toNat) * 256 + b2.toNat) 0 b3
          rw [Nat.shiftLeft_zero, Nat.shiftLeft_zero] at hlast
          simp only [Option.bind_eq_bind, Option.bind_some, Option.some.injEq]
          rw [or_byte b0.toNat 16 b1, or_byte _ 8 b2, hlast]
          omega

theorem readBe64_eq (bytes : List Byte) (p : Nat) : readBe64 bytes p = readBE 8 bytes p := by
  rw [readBe64, readBe32_eq, readBe32_eq, readBE_add 4 4]
  cases readBE 4 bytes p with
  | none => rfl
  | some high =>
    cases hlow : readBE 4 bytes (p + 4) with
    | none => rfl
    | some low =>
      have hlt : low < 2 ^ 32 := (Safe.readBE (readBE_inside hlow (by decide))).of_eq hlow
      simp only [Option.bind_eq_bind, Option.bind_some, Option.map_some, Option.some.injEq]
      rw [← Nat.shiftLeft_add_eq_or_of_lt hlt, Nat.shiftLeft_eq]
      rfl

/-- The form of the table that a magic stands for. -/
def FatFormat.of (fat64 : Bool) : FatFormat := if fat64 then .wide else .narrow

theorem archStride_eq (fat64 : Bool) : archStride fat64 = (FatFormat.of fat64).stride := by
  cases fat64 <;> rfl

/-- An entry inside the file is read, and gives its range. -/
theorem archRange_spec {file : List Byte} {fat64 : Bool} {i : Nat}
    (h : 8 + i * archStride fat64 + archStride fat64 ≤ file.length) :
    Safe (archRange file fat64 (8 + i * archStride fat64)) fun r ↦ ∀ offset size,
      r = (offset, size) ↔ EntryRange file (.of fat64) i offset size := by
  simp only [EntryRange, ← archStride_eq]
  rw [archRange]
  generalize hp : 8 + i * archStride fat64 = p at h ⊢
  cases fat64 <;> simp only [archStride, FatFormat.of, FatFormat.narrow, FatFormat.wide, if_true,
    if_false, Bool.false_eq_true, readBe32_eq, readBe64_eq] at h ⊢
  · refine .step (.readBE (by omega)) fun offset hoffset _ ↦
      .step (.readBE (by omega)) fun size hsize _ ↦ .some fun offset' size' ↦ ?_
    rw [hoffset, hsize, Prod.mk.injEq, Option.some.injEq, Option.some.injEq]
  · refine .step (.readBE (by omega)) fun offset hoffset _ ↦
      .step (.readBE (by omega)) fun size hsize _ ↦ .some fun offset' size' ↦ ?_
    rw [hoffset, hsize, Prod.mk.injEq, Option.some.injEq, Option.some.injEq]

/-! ## The header -/

/-- The type of a header that was read, if it was. -/
def ReadAs (r : Except MachoStatus MachoHeader) (cputype cpusubtype : Nat) : Prop :=
  ∃ header, r = .ok header ∧ header.cputype = cputype ∧ header.cpusubtype = cpusubtype

theorem readAs_ok {header : MachoHeader} {cputype cpusubtype : Nat} :
    ReadAs (.ok header) cputype cpusubtype ↔
      header.cputype = cputype ∧ header.cpusubtype = cpusubtype :=
  ⟨fun ⟨_, heq, htype⟩ ↦ by cases heq; exact htype, fun h ↦ ⟨header, rfl, h⟩⟩

theorem not_readAs_error {status : MachoStatus} {cputype cpusubtype : Nat} :
    ¬ ReadAs (.error status) cputype cpusubtype := fun ⟨_, heq, _⟩ ↦ nomatch heq

theorem Thin.long {image : List Byte} {cputype cpusubtype : Nat}
    (h : Thin image cputype cpusubtype) :
    headerSize ≤ image.length := by
  obtain ⟨sizeofcmds, -, hfits⟩ := h.commands
  omega

/-- What a header that was read says about the bytes. -/
structure MachoHeader.StandsIn (header : MachoHeader) (image : List Byte) : Prop where
  long : headerSize ≤ image.length
  magic : readLE 4 image 0 = some mhMagic64
  cputype : readLE 4 image 4 = some header.cputype
  cpusubtype : readLE 4 image 8 = some header.cpusubtype
  sizeofcmds : readLE 4 image 20 = some header.sizeofcmds

/-- A header is read as it stands in the bytes, wherever the magic is right and there is room. -/
theorem peekHeader_spec (image : List Byte) : Safe (peekHeader image) fun r ↦
    (∀ header, r = .ok header → header.StandsIn image) ∧ ∀ status, r = .error status →
      ¬ (headerSize ≤ image.length ∧ readLE 4 image 0 = some mhMagic64) := by
  rw [peekHeader]
  refine .ite (fun hshort ↦ .some ⟨by simp, fun _ _ hread ↦ ?_⟩) fun hfour ↦ ?_
  · have hlong := hread.1
    rw [headerSize] at hlong
    omega
  refine .step (.read (by omega)) fun magic hmagic _ ↦ ?_
  have hother : magic ≠ mhMagic64 →
      ¬ (headerSize ≤ image.length ∧ readLE 4 image 0 = some mhMagic64) :=
    fun hne h ↦ hne (Option.some.inj (hmagic.symm.trans h.2))
  refine .ite (fun h ↦ .some ⟨by simp, fun _ _ ↦ hother (by rw [h]; decide)⟩) fun _ ↦ ?_
  refine .ite (fun h ↦ .some ⟨by simp, fun _ _ ↦ hother ?_⟩) fun _ ↦ ?_
  · rcases h with rfl | rfl <;> decide
  refine .ite (fun h ↦ .some ⟨by simp, fun _ _ ↦ hother ?_⟩) fun _ ↦ ?_
  · rcases h with rfl | rfl <;> decide
  refine .ite (fun h ↦ .some ⟨by simp, fun _ _ ↦ hother h⟩) fun hmagic64 ↦ ?_
  refine .ite (fun h ↦ .some ⟨by simp, fun _ _ hread ↦ ?_⟩) fun hheader ↦ ?_
  · exact absurd hread.1 (Nat.not_le.mpr h)
  rw [not_not] at hmagic64
  rw [Nat.not_lt] at hheader
  have hlong : 32 ≤ image.length := hheader
  refine .step (.read (by omega)) fun cputype hcputype _ ↦
    .step (.read (by omega)) fun cpusubtype hcpusubtype _ ↦ .bind (.read (by omega)) fun _ _ ↦
    .bind (.read (by omega)) fun _ _ ↦ .step (.read (by omega)) fun sizeofcmds hsizeofcmds _ ↦
    .bind (.read (by omega)) fun _ _ ↦ .some ⟨fun header heq ↦ ?_, by simp⟩
  cases heq
  exact ⟨hheader, hmagic64 ▸ hmagic, hcputype, hcpusubtype, hsizeofcmds⟩

/-- The header of a thin Mach-O is read, and no other. -/
theorem readHeader_thin (image : List Byte) : Safe (readHeader image) fun r ↦
    ∀ cputype cpusubtype, ReadAs r cputype cpusubtype ↔ Thin image cputype cpusubtype := by
  rw [readHeader]
  refine .bind (peekHeader_spec image) fun r hpeek ↦ ?_
  obtain ⟨hok, herror⟩ := hpeek
  cases r with
  | error status =>
    exact .some fun _ _ ↦ iff_of_false not_readAs_error fun hthin ↦
      herror status rfl ⟨hthin.long, hthin.magic⟩
  | ok header =>
    have hstands := hok header rfl
    have hlong := hstands.long
    refine .ite (fun hbig ↦ .some fun _ _ ↦ iff_of_false not_readAs_error fun hthin ↦ ?_)
      fun hfits ↦
      .some fun cputype cpusubtype ↦ ?_
    · obtain ⟨sizeofcmds, hread, hinside⟩ := hthin.commands
      cases hread.symm.trans hstands.sizeofcmds
      omega
    · rw [readAs_ok]
      constructor
      · rintro ⟨rfl, rfl⟩
        exact ⟨hstands.magic, hstands.cputype, hstands.cpusubtype, _, hstands.sizeofcmds, by omega⟩
      · intro hthin
        exact ⟨Option.some.inj (hstands.cputype.symm.trans hthin.cputype),
          Option.some.inj (hstands.cpusubtype.symm.trans hthin.cpusubtype)⟩

/-! ## The table -/

variable {file : List Byte} {cputype cpusubtype : Nat}

theorem FirstOfType.unique {format : FatFormat} {count i j : Nat}
    (hi : FirstOfType file format count cputype cpusubtype i)
    (hj : FirstOfType file format count cputype cpusubtype j) : i = j := by
  rcases Nat.lt_trichotomy i j with hlt | heq | hlt
  · exact absurd hi.matched (hj.first i hlt)
  · exact heq
  · exact absurd hj.matched (hi.first j hlt)

/-- The table gives the slice of its first entry of the type, if it gives one. -/
theorem FirstOfType.slice_iff {format : FatFormat} {count i offset size : Nat}
    (hi : FirstOfType file format count cputype cpusubtype i)
    (hrange : EntryRange file format i offset size) (offset' size' : Nat) :
    TableSlice file format count cputype cpusubtype offset' size' ↔
      (offset' = offset ∧ size' = size) ∧ offset + size ≤ file.length ∧
        Thin ((file.drop offset).take size) cputype cpusubtype := by
  constructor
  · rintro ⟨j, hj, hrange', hinside, hthin⟩
    cases hi.unique hj
    cases hrange.1.symm.trans hrange'.1
    cases hrange.2.symm.trans hrange'.2
    exact ⟨⟨rfl, rfl⟩, hinside, hthin⟩
  · rintro ⟨⟨rfl, rfl⟩, hinside, hthin⟩
    exact ⟨i, hi, hrange, hinside, hthin⟩

/-- The loop over the entries, from an entry on before which none is of the type. -/
theorem selectArch_spec {fat64 : Bool} {count : Nat}
    (hinside : 8 + count * archStride fat64 ≤ file.length) (left i : Nat) (hleft : i + left = count)
    (hfirst : ∀ j < i, ¬ EntryOfType file (.of fat64) cputype cpusubtype j) :
    Safe (selectArch file cputype cpusubtype fat64 left i) fun r ↦ ∀ offset size,
      r = .ok (offset, size) ↔
        TableSlice file (.of fat64) count cputype cpusubtype offset size := by
  induction left generalizing i with
  | zero =>
    refine .some fun offset size ↦ iff_of_false nofun fun ⟨j, hj, _⟩ ↦ ?_
    exact hfirst j (by have := hj.lt; omega) hj.matched
  | succ left ih =>
    have hentry : 8 + i * archStride fat64 + archStride fat64 ≤ file.length := by
      have hmono := Nat.mul_le_mul_right (archStride fat64) (show i + 1 ≤ count by omega)
      rw [Nat.add_mul, Nat.one_mul] at hmono
      omega
    have hstride : 20 ≤ archStride fat64 := by cases fat64 <;> decide
    rw [selectArch, readBe32_eq, readBe32_eq]
    refine .step (.readBE (by omega)) fun entryType htype _ ↦
      .step (.readBE (by omega)) fun entrySubtype hsubtype _ ↦ ?_
    have hmatch : EntryOfType file (.of fat64) cputype cpusubtype i ↔
        entryType = cputype ∧ entrySubtype = cpusubtype := by
      rw [EntryOfType, ← archStride_eq, htype, hsubtype, Option.some.injEq, Option.some.injEq]
    refine .ite (fun hne ↦ ?_) fun heq ↦ ?_
    · refine ih (i + 1) (by omega) fun j hj ↦ ?_
      rcases Nat.lt_succ_iff_lt_or_eq.mp hj with hlt | rfl
      · exact hfirst j hlt
      · rw [hmatch, not_and_or]
        exact hne
    · rw [not_or, not_not, not_not, ← hmatch] at heq
      have hi : FirstOfType file (.of fat64) count cputype cpusubtype i := ⟨by omega, heq, hfirst⟩
      refine .bind (archRange_spec hentry) fun range hrange ↦ ?_
      obtain ⟨offset, size⟩ := range
      have hslice := hi.slice_iff ((hrange offset size).mp rfl)
      refine .ite (fun hbig ↦ .some fun _ _ ↦ iff_of_false nofun fun h ↦ ?_) fun hfits ↦ ?_
      · have := ((hslice _ _).mp h).2.1
        omega
      refine .bind (readHeader_thin _) fun r hthin ↦ ?_
      cases r with
      | error status =>
        exact .some fun _ _ ↦ iff_of_false nofun fun h ↦
          not_readAs_error ((hthin _ _).mpr ((hslice _ _).mp h).2.2)
      | ok selected =>
        simp only [readAs_ok] at hthin
        refine .ite (fun hne ↦ .some fun _ _ ↦ iff_of_false nofun fun h ↦ ?_) fun heq ↦
          .some fun offset' size' ↦ ?_
        · rw [← not_and_or, hthin] at hne
          exact hne ((hslice _ _).mp h).2.2
        · rw [not_or, not_not, not_not, hthin] at heq
          have hholds : offset + size ≤ file.length ∧
              Thin ((file.drop offset).take size) cputype cpusubtype := ⟨by omega, heq⟩
          rw [hslice, Except.ok.injEq, Prod.mk.injEq, and_iff_left hholds]
          exact and_congr eq_comm eq_comm

/-! ## The whole file -/

/-- A thin file has no fat table. -/
theorem Thin.not_fatTable {format : FatFormat} {count : Nat} (h : Thin file cputype cpusubtype) :
    ¬ FatTable file format count := by
  intro htable
  have hbyte := readBE_head htable.magic h.magic
  rcases htable.known with rfl | rfl <;> revert hbyte <;> decide

/-- The magic of a table tells its form. -/
theorem FatTable.format_eq {format format' : FatFormat} {count : Nat}
    (h : FatTable file format count) (hknown : format' = .narrow ∨ format' = .wide)
    (hmagic : format'.magic = format.magic) : format = format' := by
  rcases h.known with rfl | rfl <;> rcases hknown with rfl | rfl
  · rfl
  · exact absurd hmagic (by decide)
  · exact absurd hmagic (by decide)
  · rfl

theorem FatFormat.of_known (fat64 : Bool) :
    FatFormat.of fat64 = .narrow ∨ FatFormat.of fat64 = .wide := by
  cases fat64
  · exact .inl rfl
  · exact .inr rfl

/-- What the slice of a file with a fat table is. -/
theorem FatTable.slice_iff {format : FatFormat} {count : Nat} (h : FatTable file format count)
    (offset size : Nat) : FatSlice file cputype cpusubtype offset size ↔
      TableSlice file format count cputype cpusubtype offset size := by
  refine ⟨fun ⟨format', count', htable, hslice⟩ ↦ ?_, fun hslice ↦ ⟨format, count, h, hslice⟩⟩
  cases h.format_eq htable.known (Option.some.inj (htable.magic.symm.trans h.magic))
  cases Option.some.inj (h.counted.symm.trans htable.counted)
  exact hslice

theorem Slice.inside {offset size : Nat} (h : Slice file cputype cpusubtype offset size) :
    RangeInside file offset size := by
  rcases h with ⟨-, rfl, rfl⟩ | ⟨_, _, -, _, -, -, hinside, -⟩
  · rw [RangeInside, Nat.zero_add]
  · exact hinside

/-- A magic that belongs to no form of the table, or to one. -/
theorem FatFormat.of_magic {magic : Nat} : (magic ≠ fatMagic ∧ (!(magic == fatMagic64)) = true) ∨
    (FatFormat.of (magic == fatMagic64)).magic = magic := by
  by_cases hwide : magic = fatMagic64
  · exact .inr (by rw [hwide]; rfl)
  · by_cases hnarrow : magic = fatMagic
    · exact .inr (by rw [hnarrow]; rfl)
    · exact .inl ⟨hnarrow, by rw [beq_false_of_ne hwide]; rfl⟩

theorem selectSlice_slice (file : List Byte) (cputype cpusubtype : Nat) :
    Safe (selectSlice file cputype cpusubtype) fun r ↦ ∀ offset size,
      r = .ok (offset, size) ↔ Slice file cputype cpusubtype offset size := by
  rw [selectSlice]
  refine .ite (fun hshort ↦ .some fun offset size ↦ iff_of_false (by simp) ?_) fun hfour ↦ ?_
  · rintro (⟨hthin, -⟩ | ⟨_, _, htable, -⟩)
    · have hlong := hthin.long
      rw [headerSize] at hlong
      omega
    · have := readBE_inside htable.counted (by decide)
      omega
  refine .bind (readHeader_thin file) fun r hthin ↦ ?_
  cases r with
  | ok thin =>
    have hself := (hthin thin.cputype thin.cpusubtype).mp (readAs_ok.mpr ⟨rfl, rfl⟩)
    have hslice : ∀ offset size, Slice file cputype cpusubtype offset size ↔
        Thin file cputype cpusubtype ∧ offset = 0 ∧ size = file.length := fun offset size ↦
      or_iff_left (by rintro ⟨_, _, htable, _⟩; exact hself.not_fatTable htable)
    simp only [readAs_ok] at hthin
    refine .ite (fun hne ↦ .some fun offset size ↦ iff_of_false (by simp) fun h ↦ ?_) fun heq ↦
      .some fun offset size ↦ ?_
    · rw [← not_and_or, hthin] at hne
      exact hne ((hslice _ _).mp h).1
    · rw [not_or, not_not, not_not, hthin] at heq
      rw [hslice, Except.ok.injEq, Prod.mk.injEq, and_iff_right heq, eq_comm, @eq_comm _ size]
  | error thinStatus =>
    have hslice : ∀ offset size, Slice file cputype cpusubtype offset size ↔
        FatSlice file cputype cpusubtype offset size := fun offset size ↦
      or_iff_right fun h ↦ not_readAs_error ((hthin _ _).mpr h.1)
    simp only [hslice, readBe32_eq]
    refine .step (.readBE (by omega)) fun magic hmagic _ ↦ ?_
    refine .ite (fun hother ↦ .some fun _ _ ↦ iff_of_false (by simp) ?_) fun hformat ↦ ?_
    · rintro ⟨format, count, htable, -⟩
      cases hmagic.symm.trans htable.magic
      rcases htable.known with rfl | rfl <;> revert hother <;> decide
    have hof := FatFormat.of_magic.resolve_left hformat
    refine .ite (fun hshort ↦ .some fun _ _ ↦ iff_of_false (by simp) ?_) fun height ↦ ?_
    · rintro ⟨format, count, htable, -⟩
      have := readBE_inside htable.counted (by decide)
      omega
    refine .step (.readBE (by omega)) fun count hcount _ ↦ ?_
    generalize (magic == fatMagic64) = fat64 at hof ⊢
    refine .ite (fun hbig ↦ .some fun _ _ ↦ iff_of_false (by simp) ?_) fun hfits ↦ ?_
    · rintro ⟨format, count', htable, -⟩
      have hmagics := Option.some.inj (hmagic.symm.trans htable.magic)
      cases htable.format_eq (FatFormat.of_known fat64) (hof.trans hmagics)
      cases Option.some.inj (hcount.symm.trans htable.counted)
      have hinside := htable.inside
      rw [← archStride_eq] at hinside
      omega
    · have hinside : 8 + count * archStride fat64 ≤ file.length := by omega
      have htable : FatTable file (.of fat64) count :=
        ⟨FatFormat.of_known fat64, hof ▸ hmagic, hcount, archStride_eq fat64 ▸ hinside⟩
      simp only [htable.slice_iff]
      exact selectArch_spec hinside count 0 (Nat.zero_add _) (by simp)

/-- **Selecting a slice**, of any file and for any type: nothing outside the file is read, the slice
that is answered is the slice of the file, and it lies inside. -/
theorem selectSlice_spec (file : List Byte) (cputype cpusubtype : Nat) :
    Safe (selectSlice file cputype cpusubtype) fun r ↦
      (∀ offset size, r = .ok (offset, size) ↔ Slice file cputype cpusubtype offset size) ∧
        ∀ offset size, r = .ok (offset, size) → RangeInside file offset size :=
  (selectSlice_slice file cputype cpusubtype).mono fun _ h ↦
    ⟨h, fun offset size heq ↦ ((h offset size).mp heq).inside⟩

end HookKit.MachO
