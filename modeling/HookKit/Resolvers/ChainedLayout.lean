import HookKit.Resolvers.ChainedFixups

/-!
# Chained fixups of a layout

What the chains of an image encode, and that the walk finds it again.

* `Layout` — which fixup stands where.
* `Layout.EncodedAt` — what it means that the bytes of an image, or of its files, encode a layout.
* `decodePointer_word` — decoding a word gives the fixup back.
* `iterateBinds_encoded` — the walk visits the binds of the layout, each once and in order.
-/

set_option autoImplicit false

namespace HookKit.Chained

open LittleEndian

variable {σ : Type}

/-! ## Layouts -/

/-- The pointer formats that are decoded. -/
inductive Format where
  | arm64e | arm64eUserland | arm64eUserland24 | ptr64 | ptr64Offset
deriving DecidableEq, Repr

namespace Format

/-- The value of a format in a segment's header. -/
def code : Format → Nat
  | .arm64e => ptrArm64e
  | .arm64eUserland => ptrArm64eUserland
  | .arm64eUserland24 => ptrArm64eUserland24
  | .ptr64 => Chained.ptr64
  | .ptr64Offset => Chained.ptr64Offset

/-- Whether pointers can be authenticated. -/
def isArm64e : Format → Bool
  | .ptr64 | .ptr64Offset => false
  | _ => true

/-- The unit in which a fixup counts the distance to the next one. -/
def stride (f : Format) : Nat := if f.isArm64e then 8 else 4

/-- The width of that distance. -/
def nextBits (f : Format) : Nat := if f.isArm64e then 11 else 12

/-- The width of an import ordinal. -/
def ordinalBits : Format → Nat
  | .arm64e | .arm64eUserland => 16
  | _ => 24

end Format

/-- A fixup: a pointer to an import, or a pointer into the image itself. -/
inductive Fixup where
  | bind (ordinal : Nat) (addend : Int)
  | authBind (ordinal diversity key : Nat) (addressDiversity : Bool)
  | rebase (payload : Nat)
  | authRebase (payload : Nat)
deriving DecidableEq, Repr

namespace Fixup

/-- The fixups a format can express. -/
def Fits (f : Format) : Fixup → Prop
  | .bind ordinal addend =>
    ordinal < 2 ^ f.ordinalBits ∧
      if f.isArm64e then -2 ^ 18 ≤ addend ∧ addend < 2 ^ 18 else 0 ≤ addend ∧ addend < 2 ^ 8
  | .authBind ordinal diversity key _ =>
    f.isArm64e ∧ ordinal < 2 ^ f.ordinalBits ∧ diversity < 2 ^ 16 ∧ key < 4
  | .rebase payload => payload < 2 ^ 51
  | .authRebase payload => f.isArm64e ∧ payload < 2 ^ 51

/-- The word that encodes a fixup whose successor in the chain is `next` strides away. -/
def word (f : Format) (next : Nat) : Fixup → Nat
  | .bind ordinal addend =>
    if f.isArm64e then ordinal + (addend % 2 ^ 19).toNat * 2 ^ 32 + next * 2 ^ 51 + 2 ^ 62
    else ordinal + addend.toNat * 2 ^ 24 + next * 2 ^ 51 + 2 ^ 63
  | .authBind ordinal diversity key addressDiversity =>
    ordinal + diversity * 2 ^ 32 + addressDiversity.toNat * 2 ^ 48 + key * 2 ^ 49 + next * 2 ^ 51 +
      2 ^ 62 + 2 ^ 63
  | .rebase payload => payload + next * 2 ^ 51
  | .authRebase payload => payload + next * 2 ^ 51 + 2 ^ 63

/-- What is reported about a fixup: nothing, unless it is a bind. -/
def report (f : Format) (segmentIndex offset : Nat) : Fixup → Option ChainedBind
  | .bind ordinal addend => some {
      slotImageOffset := offset
      importOrdinal := ordinal
      segmentIndex := segmentIndex
      pointerFormat := f.code
      isAuth := false
      key := 0
      diversity := 0
      addressDiversity := false
      addend := addend }
  | .authBind ordinal diversity key addressDiversity => some {
      slotImageOffset := offset
      importOrdinal := ordinal
      segmentIndex := segmentIndex
      pointerFormat := f.code
      isAuth := true
      key := key
      diversity := diversity
      addressDiversity := addressDiversity
      addend := 0 }
  | .rebase _ | .authRebase _ => none

end Fixup

/-- The fixups of one chain and their image offsets. -/
abbrev Chain := List (Nat × Fixup)

/-- The fixups of a segment: its pages, and the chains of each page. -/
structure SegmentLayout where
  format : Format
  imageOffset : Nat
  pageSize : Nat
  pages : List (List Chain)

/-- All fixups, in the order of the pages and the chains. -/
def SegmentLayout.fixups (segment : SegmentLayout) : Chain := segment.pages.flatten.flatten

/-- The binds among fixups. -/
def reports (f : Format) (segmentIndex : Nat) (fixups : Chain) : List ChainedBind :=
  fixups.filterMap fun (offset, fixup) ↦ fixup.report f segmentIndex offset

/-- Which fixup stands where; a segment without fixups is `none`.  No two stand at one place. -/
structure Layout where
  segments : List (Option SegmentLayout)
  distinct : ((segments.filterMap id).flatMap fun segment ↦ segment.fixups.map Prod.fst).Nodup

/-- The binds of segments, the first of which has the given index. -/
def segmentBinds : Nat → List (Option SegmentLayout) → List ChainedBind
  | _, [] => []
  | i, none :: rest => segmentBinds (i + 1) rest
  | i, some segment :: rest =>
    reports segment.format i segment.fixups ++ segmentBinds (i + 1) rest

/-- The binds of a layout, in the order of the segments, the pages and the chains. -/
def Layout.binds (layout : Layout) : List ChainedBind := segmentBinds 0 layout.segments

/-! ## Encodings -/

/-- A number stands in bytes. -/
def Holds (bytes : List Byte) (count position v : Nat) : Prop :=
  v < 256 ^ count ∧ littleEndian count v <+: bytes.drop position

/-- The word of a fixup stands in the storage of its segment: inside the segment's pages and inside
the part of the storage that belongs to it. -/
structure FixupAt (storage : List Byte) (mapping : SegmentMapping) (segmentEnd : Nat) (f : Format)
    (next offset : Nat) (fixup : Fixup) : Prop where
  fits : fixup.Fits f
  next_lt : next < 2 ^ f.nextBits
  start : mapping.imageOffset ≤ offset
  end_ : offset + 8 ≤ segmentEnd
  stored : offset - mapping.imageOffset + 8 ≤ mapping.fileSize
  word : Holds storage 8 (mapping.fileOffset + (offset - mapping.imageOffset)) (fixup.word f next)

/-- The words of a chain stand in the storage. -/
inductive ChainAt (storage : List Byte) (mapping : SegmentMapping) (segmentEnd : Nat) (f : Format) :
    Nat → Chain → Prop where
  | last {offset : Nat} {fixup : Fixup}
      (here : FixupAt storage mapping segmentEnd f 0 offset fixup) :
      ChainAt storage mapping segmentEnd f offset [(offset, fixup)]
  | link {offset next : Nat} {fixup : Fixup} {rest : Chain} (hnext : next ≠ 0)
      (here : FixupAt storage mapping segmentEnd f next offset fixup)
      (there : ChainAt storage mapping segmentEnd f (offset + next * f.stride) rest) :
      ChainAt storage mapping segmentEnd f offset ((offset, fixup) :: rest)

/-- The entries of an overflow list stand in the starts of a segment, from `index` on; `starts` is
where the starts begin and `extent` how many bytes they have. -/
inductive MultiAt (blob : List Byte) (starts extent pageBase : Nat) (Encoded : Nat → Chain → Prop) :
    Nat → List Chain → Prop where
  | last {index start : Nat} {chain : Chain} (inside : index * 2 + 2 ≤ extent)
      (small : start < startLast) (entry : Holds blob 2 (starts + index * 2) (startLast + start))
      (encoded : Encoded (pageBase + start) chain) :
      MultiAt blob starts extent pageBase Encoded index [chain]
  | more {index start : Nat} {chain : Chain} {rest : List Chain} (inside : index * 2 + 2 ≤ extent)
      (small : start < startLast) (entry : Holds blob 2 (starts + index * 2) start)
      (encoded : Encoded (pageBase + start) chain)
      (others : MultiAt blob starts extent pageBase Encoded (index + 1) rest) :
      MultiAt blob starts extent pageBase Encoded index (chain :: rest)

/-- The start of a page encodes its chains: none, a single one, or a list of them. -/
inductive PageAt (blob : List Byte) (starts extent pageBase : Nat) (Encoded : Nat → Chain → Prop)
    (page : Nat) : List Chain → Prop where
  | none (entry : Holds blob 2 (starts + page * 2) startNone) :
      PageAt blob starts extent pageBase Encoded page []
  | single {start : Nat} {chain : Chain} (small : start < startMulti)
      (entry : Holds blob 2 (starts + page * 2) start)
      (encoded : Encoded (pageBase + start) chain) :
      PageAt blob starts extent pageBase Encoded page [chain]
  | multi {index : Nat} {chains : List Chain} (small : startMulti + index < startNone)
      (entry : Holds blob 2 (starts + page * 2) (startMulti + index))
      (list : MultiAt blob starts extent pageBase Encoded index chains) :
      PageAt blob starts extent pageBase Encoded page chains

/-- The bytes encode a segment, with the header of its starts at `position`. -/
structure SegmentAt (blob storage : List Byte) (mapping : SegmentMapping) (position : Nat)
    (segment : SegmentLayout) : Prop where
  size : ∃ extent, Holds blob 4 position (startsInSegmentHeader + extent) ∧
    position + startsInSegmentHeader + extent ≤ blob.length ∧ segment.pages.length * 2 ≤ extent ∧
    ∀ page chains, segment.pages[page]? = some chains →
      PageAt blob (position + startsInSegmentHeader) extent
        (segment.imageOffset + page * segment.pageSize)
        (ChainAt storage mapping (segment.imageOffset + segment.pages.length * segment.pageSize)
          segment.format) page chains
  pageSize : segment.pageSize ≠ 0 ∧ Holds blob 2 (position + 4) segment.pageSize
  format : Holds blob 2 (position + 6) segment.format.code
  imageOffset : Holds blob 8 (position + 8) segment.imageOffset
  pageCount : Holds blob 2 (position + 20) segment.pages.length
  /-- Image offsets are 64-bit numbers. -/
  addressable : segment.imageOffset + segment.pages.length * segment.pageSize < 2 ^ 64
  mapped : mapping.imageOffset = segment.imageOffset

/-- The storage of a segment: a loaded image has it at the segment's image offset, a file wherever
the table of mappings says. -/
def Backs (storage : List Byte) (segments : Option (List SegmentMapping)) (i imageOffset : Nat)
    (mapping : SegmentMapping) : Prop :=
  match segments with
  | none => mapping = ⟨imageOffset, imageOffset, storage.length - imageOffset⟩
  | some mappings => mappings[i]? = some mapping

/-- The bytes encode a layout. -/
structure Layout.EncodedAt (fixups : ChainedFixups) (storage : List Byte)
    (segments : Option (List SegmentMapping)) (layout : Layout) : Prop where
  count : Holds fixups.blob 4 fixups.startsOffset layout.segments.length
  table : fixups.startsOffset + 4 + layout.segments.length * 4 ≤ fixups.blob.length
  without : ∀ i : Nat, layout.segments[i]? = some none →
    Holds fixups.blob 4 (fixups.startsOffset + 4 + i * 4) 0
  segment : ∀ i segment, layout.segments[i]? = some (some segment) →
    ∃ info mapping, info ≠ 0 ∧ Holds fixups.blob 4 (fixups.startsOffset + 4 + i * 4) info ∧
      Backs storage segments i segment.imageOffset mapping ∧
      SegmentAt fixups.blob storage mapping (fixups.startsOffset + info) segment

/-! ## Decoding a pointer -/

/-- Sign extension undoes the reduction of a signed number to 19 bits. -/
theorem signExtend_emod {a : Int} (hlow : -2 ^ 18 ≤ a) (hhigh : a < 2 ^ 18) :
    signExtend (a % 2 ^ 19).toNat 19 = a := by
  have hsigned (w v : Nat) (hv : v < 2 ^ 20) (hw : w = 2 ^ 18) (hlt : v < w + 2 ^ 18) :
      (BitVec.ofNat 64 v - BitVec.ofNat 64 w).toInt = (v : Int) - w := by
    have htoInt (n : Nat) (hn : n < 2 ^ 20) : (BitVec.ofNat 64 n).toInt = n := by
      rw [BitVec.toInt_eq_toNat_of_lt (by rw [BitVec.toNat_ofNat]; omega), BitVec.toNat_ofNat]
      omega
    rw [BitVec.toInt_sub, htoInt v hv, htoInt w (by omega), Int.bmod_def]
    omega
  rw [signExtend, show 19 - 1 = 18 from rfl]
  rcases lt_or_ge a 0 with hneg | hnonneg
  · have hv : ((a % 2 ^ 19).toNat : Int) = a + 2 ^ 19 := by omega
    rw [xor_two_pow_of_ge (by omega) (by omega), hsigned _ _ (by omega) rfl (by omega)]
    omega
  · have hv : ((a % 2 ^ 19).toNat : Int) = a := by omega
    rw [xor_two_pow_of_lt (by omega), hsigned _ _ (by omega) rfl (by omega)]
    omega

/-- The parts of an arm64e word. -/
theorem decodePointer_arm64e {f : Format} (hf : f.isArm64e) {low next : Nat} (bind auth : Bool)
    (hlow : low < 2 ^ 51) (hnext : next < 2 ^ 11) :
    decodePointer (low + next * 2 ^ 51 + bind.toNat * 2 ^ 62 + auth.toNat * 2 ^ 63) f.code =
      { isBind := bind
        isAuth := auth
        ordinal := field 0 f.ordinalBits low
        next := next
        key := if bind && auth then field 49 2 low else 0
        diversity := if bind && auth then field 32 16 low else 0
        addressDiversity := bind && auth && decide (field 48 1 low ≠ 0)
        addend := if bind && !auth then signExtend (field 32 19 low) 19 else 0 } := by
  have hformat : formatIsArm64e f.code = true := by
    cases f <;> first | rfl | cases hf
  generalize hraw : low + next * 2 ^ 51 + bind.toNat * 2 ^ 62 + auth.toNat * 2 ^ 63 = raw
  have hauth : raw >>> 63 &&& 1 = auth.toNat := by
    rw [show 1 = 2 ^ 1 - 1 from rfl, shiftRight_and, field]
    have := Bool.toNat_lt bind
    have := Bool.toNat_lt auth
    omega
  have hbind : raw >>> 62 &&& 1 = bind.toNat := by
    rw [show 1 = 2 ^ 1 - 1 from rfl, shiftRight_and, field]
    have := Bool.toNat_lt bind
    omega
  have hnext' : raw >>> 51 &&& 0x7ff = next := by
    rw [show 0x7ff = 2 ^ 11 - 1 from rfl, shiftRight_and, field]
    omega
  have hfield (lo width : Nat) (h : lo + width ≤ 51) :
      raw >>> lo &&& (2 ^ width - 1) = field lo width low := by
    have hhigh : raw = low + (next + bind.toNat * 2 ^ 11 + auth.toNat * 2 ^ 12) * 2 ^ 51 := by omega
    rw [shiftRight_and, hhigh, field_add_mul h]
  have hordinal : (if f.code = ptrArm64eUserland24 then raw &&& 0xffffff else raw &&& 0xffff) =
      field 0 f.ordinalBits low := by
    have h16 := hfield 0 16 (by decide)
    have h24 := hfield 0 24 (by decide)
    rw [Nat.shiftRight_zero] at h16 h24
    cases f with
    | arm64e | arm64eUserland => rw [if_neg (by decide)]; exact h16
    | arm64eUserland24 => rw [if_pos (by decide)]; exact h24
    | ptr64 | ptr64Offset => cases hf
  rw [decodePointer, if_pos hformat]
  have hdiversity : raw >>> 32 &&& 0xffff = field 32 16 low := hfield 32 16 (by decide)
  have haddress : raw >>> 48 &&& 1 = field 48 1 low := hfield 48 1 (by decide)
  have hkey : raw >>> 49 &&& 0x3 = field 49 2 low := hfield 49 2 (by decide)
  have haddend : raw >>> 32 &&& 0x7ffff = field 32 19 low := hfield 32 19 (by decide)
  simp only [hauth, hbind, hnext', hordinal, hdiversity, haddress, hkey, haddend]
  cases bind <;> cases auth <;> simp [ChainedPtr.zero]
/-- The parts of a word of the other formats. -/
theorem decodePointer_ptr64 {f : Format} (hf : f.isArm64e = false) {low next : Nat} (bind : Bool)
    (hlow : low < 2 ^ 51) (hnext : next < 2 ^ 12) :
    decodePointer (low + next * 2 ^ 51 + bind.toNat * 2 ^ 63) f.code =
      { isBind := bind
        isAuth := false
        ordinal := field 0 24 low
        next := next
        key := 0
        diversity := 0
        addressDiversity := false
        addend := if bind then (field 24 8 low : Nat) else 0 } := by
  have hformat : formatIsArm64e f.code = false := by
    cases f <;> first | rfl | cases hf
  generalize hraw : low + next * 2 ^ 51 + bind.toNat * 2 ^ 63 = raw
  have hbind : raw >>> 63 &&& 1 = bind.toNat := by
    rw [show 1 = 2 ^ 1 - 1 from rfl, shiftRight_and, field]
    have := Bool.toNat_lt bind
    omega
  have hnext' : raw >>> 51 &&& 0xfff = next := by
    rw [show 0xfff = 2 ^ 12 - 1 from rfl, shiftRight_and, field]
    omega
  have hfield (lo width : Nat) (h : lo + width ≤ 51) :
      raw >>> lo &&& (2 ^ width - 1) = field lo width low := by
    have hhigh : raw = low + (next + bind.toNat * 2 ^ 12) * 2 ^ 51 := by omega
    rw [shiftRight_and, hhigh, field_add_mul h]
  have hordinal : raw &&& 0xffffff = field 0 24 low := by
    have h24 := hfield 0 24 (by decide)
    rwa [Nat.shiftRight_zero] at h24
  have haddend : raw >>> 24 &&& 0xff = field 24 8 low := hfield 24 8 (by decide)
  rw [decodePointer, if_neg (by rw [hformat]; decide)]
  simp only [hbind, hnext', hordinal, haddend]
  cases bind <;> simp [ChainedPtr.zero]

/-- What a decoded pointer says about a bind. -/
def ChainedPtr.report (ptr : ChainedPtr) (f : Format) (segmentIndex offset : Nat) :
    Option ChainedBind :=
  if ptr.isBind then
    some {
      slotImageOffset := offset
      importOrdinal := ptr.ordinal
      segmentIndex := segmentIndex
      pointerFormat := f.code
      isAuth := ptr.isAuth
      key := ptr.key
      diversity := ptr.diversity
      addressDiversity := ptr.addressDiversity
      addend := ptr.addend }
  else none

theorem Format.ordinalBits_cases (f : Format) : f.ordinalBits = 16 ∨ f.ordinalBits = 24 := by
  cases f <;> simp [Format.ordinalBits]

theorem Format.ordinalBits_ptr64 {f : Format} (hf : f.isArm64e = false) : f.ordinalBits = 24 := by
  cases f <;> first | rfl | cases hf

/-- Decoding inverts encoding. -/
theorem decodePointer_word {f : Format} {fixup : Fixup} {next : Nat} (hfits : fixup.Fits f)
    (hnext : next < 2 ^ f.nextBits) (segmentIndex offset : Nat) :
    (decodePointer (fixup.word f next) f.code).next = next ∧
      (decodePointer (fixup.word f next) f.code).report f segmentIndex offset =
        fixup.report f segmentIndex offset := by
  cases hf : f.isArm64e with
  | true =>
    rw [Format.nextBits, hf, if_pos rfl] at hnext
    cases fixup with
    | bind ordinal addend =>
      rw [Fixup.Fits, hf, if_pos rfl] at hfits
      obtain ⟨hordinal, hlow, hhigh⟩ := hfits
      have haddend : (addend % 2 ^ 19).toNat < 2 ^ 19 := by omega
      have hordinal' : ordinal < 2 ^ 24 := by
        rcases f.ordinalBits_cases with h | h <;> rw [h] at hordinal <;> omega
      have hword : Fixup.word f next (.bind ordinal addend) =
          ordinal + (addend % 2 ^ 19).toNat * 2 ^ 32 + next * 2 ^ 51 + true.toNat * 2 ^ 62 +
            false.toNat * 2 ^ 63 := by
        rw [Fixup.word, if_pos hf]
        simp
      have hfield : field 32 19 (ordinal + (addend % 2 ^ 19).toNat * 2 ^ 32) =
          (addend % 2 ^ 19).toNat := by
        rw [field]
        omega
      have hordinals : field 0 f.ordinalBits (ordinal + (addend % 2 ^ 19).toNat * 2 ^ 32) =
          ordinal := by
        rw [field]
        rcases f.ordinalBits_cases with h | h <;> rw [h] at hordinal ⊢ <;> omega
      rw [hword, decodePointer_arm64e hf true false (by omega) hnext, hfield, hordinals,
        signExtend_emod hlow hhigh]
      simp [ChainedPtr.report, Fixup.report]
    | authBind ordinal diversity key addressDiversity =>
      obtain ⟨-, hordinal, hdiversity, hkey⟩ := hfits
      have hordinal' : ordinal < 2 ^ 24 := by
        rcases f.ordinalBits_cases with h | h <;> rw [h] at hordinal <;> omega
      have := Bool.toNat_lt addressDiversity
      generalize hlow : ordinal + diversity * 2 ^ 32 + addressDiversity.toNat * 2 ^ 48 +
        key * 2 ^ 49 = low
      have hword : Fixup.word f next (.authBind ordinal diversity key addressDiversity) =
          low + next * 2 ^ 51 + true.toNat * 2 ^ 62 + true.toNat * 2 ^ 63 := by
        rw [Fixup.word, hlow]
        simp
      have hdiversity' : field 32 16 low = diversity := by
        rw [field]
        omega
      have haddress : field 48 1 low = addressDiversity.toNat := by
        rw [field]
        omega
      have hkey' : field 49 2 low = key := by
        rw [field]
        omega
      have hordinals : field 0 f.ordinalBits low = ordinal := by
        rw [field]
        rcases f.ordinalBits_cases with h | h <;> rw [h] at hordinal ⊢ <;> omega
      rw [hword, decodePointer_arm64e hf true true (by omega) hnext, hdiversity', haddress, hkey',
        hordinals]
      simp [ChainedPtr.report, Fixup.report]
    | rebase payload =>
      have hlow : payload < 2 ^ 51 := hfits
      have hword : Fixup.word f next (.rebase payload) =
          payload + next * 2 ^ 51 + false.toNat * 2 ^ 62 + false.toNat * 2 ^ 63 := by
        simp [Fixup.word]
      rw [hword, decodePointer_arm64e hf false false hlow hnext]
      simp [ChainedPtr.report, Fixup.report]
    | authRebase payload =>
      have hword : Fixup.word f next (.authRebase payload) =
          payload + next * 2 ^ 51 + false.toNat * 2 ^ 62 + true.toNat * 2 ^ 63 := by
        simp [Fixup.word]
      rw [hword, decodePointer_arm64e hf false true hfits.2 hnext]
      simp [ChainedPtr.report, Fixup.report]
  | false =>
    rw [Format.nextBits, hf, if_neg (by decide)] at hnext
    cases fixup with
    | bind ordinal addend =>
      rw [Fixup.Fits, hf, if_neg (by decide), f.ordinalBits_ptr64 hf] at hfits
      obtain ⟨hordinal, hlow, hhigh⟩ := hfits
      have hword : Fixup.word f next (.bind ordinal addend) =
          ordinal + addend.toNat * 2 ^ 24 + next * 2 ^ 51 + true.toNat * 2 ^ 63 := by
        rw [Fixup.word, if_neg (by rw [hf]; decide)]
        simp
      have hfield : field 24 8 (ordinal + addend.toNat * 2 ^ 24) = addend.toNat := by
        rw [field]
        omega
      have hordinals : field 0 24 (ordinal + addend.toNat * 2 ^ 24) = ordinal := by
        rw [field]
        omega
      rw [hword, decodePointer_ptr64 hf true (by omega) hnext, hfield, hordinals]
      simp [ChainedPtr.report, Fixup.report, Int.toNat_of_nonneg hlow]
    | authBind ordinal diversity key addressDiversity =>
      rw [Fixup.Fits, hf] at hfits
      cases hfits.1
    | rebase payload =>
      have hlow : payload < 2 ^ 51 := hfits
      have hword : Fixup.word f next (.rebase payload) =
          payload + next * 2 ^ 51 + false.toNat * 2 ^ 63 := by
        simp [Fixup.word]
      rw [hword, decodePointer_ptr64 hf false hlow hnext]
      simp [ChainedPtr.report, Fixup.report]
    | authRebase payload =>
      rw [Fixup.Fits, hf] at hfits
      cases hfits.1

/-! ## Following the encoding -/

theorem Holds.read {bytes : List Byte} {count position v : Nat} (h : Holds bytes count position v) :
    readLE count bytes position = some v := readLE_littleEndian h.1 h.2

theorem Holds.inside {bytes : List Byte} {count position v : Nat} (h : Holds bytes count position v)
    (hcount : 0 < count) : position + count ≤ bytes.length := readLE_inside h.read hcount

/-- Hand binds to a visitor, one after the other. -/
def visitAll (visit : Visit σ) (s : σ) (binds : List ChainedBind) : σ :=
  binds.foldl (fun s bind ↦ (visit s bind).2) s

theorem visitAll_append (visit : Visit σ) (s : σ) (binds binds' : List ChainedBind) :
    visitAll visit s (binds ++ binds') = visitAll visit (visitAll visit s binds) binds' :=
  List.foldl_append

theorem reports_append (f : Format) (segmentIndex : Nat) (fixups fixups' : Chain) :
    reports f segmentIndex (fixups ++ fixups') =
      reports f segmentIndex fixups ++ reports f segmentIndex fixups' :=
  List.filterMap_append

/-- The walk knows where the storage of the segment is, and the segment ends below `2 ^ 64`. -/
structure ChainCtx.Follows (c : ChainCtx) (storage : List Byte) (mapping : SegmentMapping)
    (f : Format) : Prop where
  storage_eq : c.storage = storage
  fileOffset : c.storageSegmentStart = mapping.fileOffset
  fileSize : c.storageSegmentSize = mapping.fileSize
  format : c.pointerFormat = f.code
  stride : c.stride = f.stride
  imageOffset : c.segmentStart = mapping.imageOffset
  addressable : c.segmentEnd < 2 ^ 64

theorem ChainAt.start_le {storage : List Byte} {mapping : SegmentMapping} {segmentEnd offset : Nat}
    {f : Format} {chain : Chain} (h : ChainAt storage mapping segmentEnd f offset chain) :
    offset + 8 ≤ segmentEnd := by
  cases h with
  | last here => exact here.end_
  | link _ here _ => exact here.end_

theorem Format.stride_pos (f : Format) : 0 < f.stride := by
  cases f <;> decide

theorem visitPtr_report (c : ChainCtx) {f : Format} (hformat : c.pointerFormat = f.code)
    (visit : Visit σ) (offset : Nat) (ptr : ChainedPtr) (s : σ) :
    visitPtr c visit offset ptr s =
      match ptr.report f c.segmentIndex offset with
      | some bind => visit s bind
      | none => (true, s) := by
  rw [visitPtr, ChainedPtr.report, hformat]
  split <;> rfl

/-- An entry of the starts with its high bit clear. -/
theorem entry_plain {v : Nat} (hv : v < 0x8000) : v &&& 0x7fff = v ∧ v &&& 0x8000 = 0 :=
  ⟨(Nat.and_two_pow_sub_one_eq_mod v 15).trans (Nat.mod_eq_of_lt hv), @and_two_pow_of_lt v 15 hv⟩

/-- An entry of the starts with its high bit set. -/
theorem entry_flagged {v : Nat} (hv : v < 0x8000) :
    (0x8000 + v) &&& 0x8000 ≠ 0 ∧ (0x8000 + v) &&& 0x7fff = v :=
  @and_two_pow_add v 15 hv

/-- What the walk takes from the mapping of a segment. -/
theorem Backs.mapping {storage : List Byte} {segments : Option (List SegmentMapping)}
    {i imageOffset : Nat} {mapping : SegmentMapping}
    (h : Backs storage segments i imageOffset mapping)
    (hmapped : mapping.imageOffset = imageOffset) :
    let found := segments.bind fun mappings ↦ mappings[i]?
    (found.any fun m ↦ decide (m.imageOffset ≠ imageOffset)) = false ∧
      (found.map SegmentMapping.fileOffset).getD imageOffset = mapping.fileOffset ∧
      (found.map SegmentMapping.fileSize).getD (storage.length - min imageOffset storage.length) =
        mapping.fileSize := by
  cases segments with
  | none =>
    have hloaded : mapping = ⟨imageOffset, imageOffset, storage.length - imageOffset⟩ := h
    subst hloaded
    refine ⟨rfl, rfl, ?_⟩
    simp only [Option.bind_none, Option.map_none, Option.getD_none]
    omega
  | some mappings =>
    have hget : mappings[i]? = some mapping := h
    simp [hget, hmapped]

section Visiting

variable {visit : Visit σ} (hvisit : ∀ s bind, (visit s bind).1 = true) {c : ChainCtx}
  {storage : List Byte} {mapping : SegmentMapping} {f : Format}

include hvisit

/-- What one pass does: the fixup is visited if it is a bind, and the walk goes on behind it. -/
theorem walkChain_fixup (hc : c.Follows storage mapping f) {offset next : Nat} {fixup : Fixup}
    (h : FixupAt storage mapping c.segmentEnd f next offset fixup) (passes : Nat) (s : σ) :
    walkChain c visit (passes + 1) offset s =
      let s := visitAll visit s (reports f c.segmentIndex [(offset, fixup)])
      if next = 0 then some (.ok, false, s)
      else
        let advanced := (offset + next * f.stride) % 2 ^ 64
        if advanced ≤ offset then some (.malformed, false, s)
        else walkChain c visit passes advanced s := by
  obtain ⟨hnext, hreport⟩ := decodePointer_word h.fits h.next_lt c.segmentIndex offset
  have hinside := h.word.inside (by decide)
  have hstart := h.start
  have hend := h.end_
  have hstored := h.stored
  have hvisited : visitPtr c visit offset (decodePointer (fixup.word f next) f.code) s =
      (true, visitAll visit s (reports f c.segmentIndex [(offset, fixup)])) := by
    rw [visitPtr_report c hc.format, hreport, reports, List.filterMap_cons, List.filterMap_nil]
    dsimp only
    cases fixup.report f c.segmentIndex offset with
    | none => rfl
    | some bind => exact Prod.ext (hvisit s bind) rfl
  rw [walkChain, hc.storage_eq, hc.fileOffset, hc.fileSize, hc.imageOffset, hc.stride, hc.format,
    if_neg (by omega)]
  dsimp only
  rw [if_neg (by omega), h.word.read]
  dsimp only
  rw [hvisited]
  dsimp only
  rw [hnext]

/-- Walking a chain visits its binds. -/
theorem walkChain_encoded (hc : c.Follows storage mapping f) {offset passes : Nat} {chain : Chain}
    (h : ChainAt storage mapping c.segmentEnd f offset chain) (hpasses : c.passes offset ≤ passes)
    (s : σ) :
    walkChain c visit passes offset s =
      some (.ok, false, visitAll visit s (reports f c.segmentIndex chain)) := by
  induction h generalizing passes s with
  | last here =>
    obtain ⟨passes, rfl⟩ := Nat.exists_eq_add_of_le' (Nat.le_trans (Nat.le_add_left 1 _) hpasses)
    rw [walkChain_fixup hvisit hc here]
    rfl
  | @link offset next fixup rest hnext here there ih =>
    obtain ⟨passes, rfl⟩ := Nat.exists_eq_add_of_le' (Nat.le_trans (Nat.le_add_left 1 _) hpasses)
    have hadvance : 0 < next * f.stride := Nat.mul_pos (Nat.pos_of_ne_zero hnext) f.stride_pos
    have hbound := there.start_le
    have haddressable := hc.addressable
    have hmod : (offset + next * f.stride) % 2 ^ 64 = offset + next * f.stride :=
      Nat.mod_eq_of_lt (by omega)
    rw [walkChain_fixup hvisit hc here]
    dsimp only
    rw [if_neg hnext, hmod, if_neg (by omega), ih (by rw [ChainCtx.passes] at hpasses ⊢; omega),
      ← visitAll_append, ← reports_append]
    rfl

/-- Walking an overflow list visits its chains. -/
theorem walkMulti_encoded (hc : c.Follows storage mapping f) {blob : List Byte}
    {starts extent pageBase index passes : Nat} {chains : List Chain}
    (h : MultiAt blob starts extent pageBase (ChainAt storage mapping c.segmentEnd f) index chains)
    (hpasses : extent < index + passes) (s : σ) :
    walkMulti c visit blob starts extent pageBase passes index s =
      some (.ok, false, visitAll visit s (reports f c.segmentIndex chains.flatten)) := by
  have haddressable := hc.addressable
  induction h generalizing passes s with
  | @last index start chain inside small entry encoded =>
    obtain ⟨passes, rfl⟩ : ∃ n, passes = n + 1 := ⟨passes - 1, by omega⟩
    have hbound := encoded.start_le
    obtain ⟨hlast, hstart⟩ := entry_flagged small
    rw [walkMulti, if_neg (by omega), entry.read]
    dsimp only
    rw [startLast, hstart, Nat.mod_eq_of_lt (by omega), walkChain_encoded hvisit hc encoded le_rfl]
    dsimp only
    rw [if_pos hlast, List.flatten_singleton]
  | @more index start chain rest inside small entry encoded others ih =>
    obtain ⟨passes, rfl⟩ : ∃ n, passes = n + 1 := ⟨passes - 1, by omega⟩
    have hbound := encoded.start_le
    obtain ⟨hstart, hnotLast⟩ := entry_plain small
    rw [walkMulti, if_neg (by omega), entry.read]
    dsimp only
    rw [startLast, hstart, Nat.mod_eq_of_lt (by omega), walkChain_encoded hvisit hc encoded le_rfl]
    dsimp only
    rw [if_neg (not_not_intro hnotLast), ih (by omega), ← visitAll_append,
      ← reports_append, List.flatten_cons]

/-- Walking the pages from `page` on visits their chains. -/
theorem walkPages_encoded (hc : c.Follows storage mapping f) {blob : List Byte}
    {starts extent pageSize page : Nat} {pages : List (List Chain)}
    (h : ∀ i chains, pages[i]? = some chains →
      PageAt blob starts extent (c.segmentStart + (page + i) * pageSize)
        (ChainAt storage mapping c.segmentEnd f) (page + i) chains) (s : σ) :
    walkPages c visit blob starts extent pageSize pages.length page s =
      some (.ok, false, visitAll visit s (reports f c.segmentIndex pages.flatten.flatten)) := by
  have haddressable := hc.addressable
  induction pages generalizing page s with
  | nil => rfl
  | cons chains pages ih =>
    have hpage := h 0 chains rfl
    rw [Nat.add_zero] at hpage
    have hrest (s : σ) : walkPages c visit blob starts extent pageSize pages.length (page + 1) s =
        some (.ok, false, visitAll visit s (reports f c.segmentIndex pages.flatten.flatten)) := by
      refine ih (fun i chains hget ↦ ?_) s
      have := h (i + 1) chains hget
      rwa [Nat.add_right_comm page 1 i, Nat.add_assoc]
    rw [List.length_cons, walkPages, List.flatten_cons, List.flatten_append, reports_append,
      visitAll_append]
    cases hpage with
    | none entry =>
      rw [entry.read]
      dsimp only
      rw [if_pos rfl]
      exact hrest s
    | @single start chain small entry encoded =>
      have hbound := encoded.start_le
      have hsome : start ≠ startNone := by
        rw [startMulti] at small
        rw [startNone]
        omega
      have hsingle : ¬(start &&& startMulti ≠ 0) := not_not_intro (entry_plain small).2
      rw [entry.read]
      dsimp only
      rw [if_neg hsome, if_neg hsingle, Nat.mod_eq_of_lt (by omega),
        walkChain_encoded hvisit hc encoded le_rfl, List.flatten_singleton]
      exact hrest _
    | @multi index chains small entry list =>
      have hsome : startMulti + index ≠ startNone := by omega
      rw [startMulti, startNone] at small
      obtain ⟨hmulti, hindex⟩ := entry_flagged (by omega : index < 0x8000)
      rw [entry.read]
      dsimp only
      rw [if_neg hsome, startMulti, if_pos hmulti, hindex,
        walkMulti_encoded hvisit hc list (by omega)]
      exact hrest _

/-- Walking a segment visits its binds. -/
theorem walkSegment_encoded {fixups : ChainedFixups} {segments : Option (List SegmentMapping)}
    {position i : Nat} {segment : SegmentLayout}
    (hbacks : Backs storage segments i segment.imageOffset mapping)
    (h : SegmentAt fixups.blob storage mapping position segment) (s : σ) :
    walkSegment fixups storage (segments.bind fun mappings ↦ mappings[i]?) position i visit s =
      some (.ok, false, visitAll visit s (reports segment.format i segment.fixups)) := by
  obtain ⟨extent, hsize, hinside, hpages, hchains⟩ := h.size
  have hstride : formatStride segment.format.code = segment.format.stride := by
    cases segment.format <;> rfl
  have hstride' := segment.format.stride_pos
  have haddressable := h.addressable
  have hheader : startsInSegmentHeader = 22 := rfl
  obtain ⟨hmapping, hstart, hfileSize⟩ := hbacks.mapping h.mapped
  rw [walkSegment]
  dsimp only
  rw [if_neg (by omega), hsize.read, h.pageSize.2.read, h.format.read, h.imageOffset.read,
    h.pageCount.read]
  simp only [Option.bind_eq_bind, Option.bind_some]
  rw [if_neg h.pageSize.1, hstride, if_neg (by omega), if_neg (by omega), if_neg (by omega),
    if_neg (by omega), hmapping, if_neg (by decide), if_neg (by omega), Nat.add_sub_cancel_left,
    hstart, hfileSize]
  refine walkPages_encoded hvisit ⟨rfl, rfl, rfl, rfl, rfl, h.mapped.symm, haddressable⟩
    (fun page chains hget ↦ ?_) s
  rw [Nat.zero_add]
  exact hchains page chains hget

/-- Walking the segments from `i` on visits their binds. -/
theorem walkSegments_encoded {fixups : ChainedFixups} {segments : Option (List SegmentMapping)}
    {layout : Layout} (h : layout.EncodedAt fixups storage segments) {i : Nat}
    {rest : List (Option SegmentLayout)} (hrest : layout.segments.drop i = rest) (s : σ) :
    walkSegments fixups storage segments visit rest.length i s =
      some (.ok, false, visitAll visit s (segmentBinds i rest)) := by
  induction rest generalizing i s with
  | nil => rfl
  | cons head rest ih =>
    have hget : layout.segments[i]? = some head := by
      rw [← List.head?_drop, hrest]
      rfl
    have hdrop : layout.segments.drop (i + 1) = rest := by
      rw [← List.drop_drop, hrest]
      rfl
    rw [List.length_cons, walkSegments]
    cases head with
    | none =>
      rw [(h.without i hget).read]
      dsimp only
      rw [if_pos rfl, segmentBinds]
      exact ih hdrop s
    | some segment =>
      obtain ⟨info, mapping, hinfo, hentry, hbacks, hsegment⟩ := h.segment i segment hget
      obtain ⟨extent, -, hinside, -⟩ := hsegment.size
      have hi : (segments.any fun mappings ↦ decide (i ≥ mappings.length)) = false := by
        cases segments with
        | none => rfl
        | some mappings =>
          have hget : mappings[i]? = some mapping := hbacks
          simpa using (List.getElem?_eq_some_iff.mp hget).1
      rw [hentry.read]
      dsimp only
      rw [if_neg hinfo, hi, if_neg (by decide), if_neg (by omega),
        walkSegment_encoded hvisit hbacks hsegment]
      dsimp only
      rw [ih hdrop, segmentBinds, visitAll_append]

end Visiting

/-- The walk over a loaded image, or over files where there is a mapping. -/
theorem iterate_encoded {fixups : ChainedFixups} {storage : List Byte}
    {segments : Option (List SegmentMapping)} {layout : Layout}
    (h : layout.EncodedAt fixups storage segments) (hmappings : segments ≠ some [])
    {visit : Visit σ}
    (hvisit : ∀ s bind, (visit s bind).1 = true) (s : σ) :
    iterate fixups storage segments visit s = some (.ok, visitAll visit s layout.binds) := by
  have hempty : segments.any List.isEmpty = false := by
    cases segments with
    | none => rfl
    | some mappings =>
      cases mappings with
      | nil => exact absurd rfl hmappings
      | cons => rfl
  have htable := h.table
  rw [iterate, hempty, if_neg (by decide), if_neg (by omega), h.count.read]
  simp only [Option.bind_eq_bind, Option.bind_some]
  rw [if_neg (by omega), walkSegments_encoded hvisit h List.drop_zero s]
  rfl

/-! ## Every bind is visited once -/

theorem reports_offsets (f : Format) (segmentIndex : Nat) (fixups : Chain) :
    ((reports f segmentIndex fixups).map ChainedBind.slotImageOffset).Sublist
      (fixups.map Prod.fst) := by
  induction fixups with
  | nil => exact List.Sublist.refl _
  | cons head rest ih =>
    obtain ⟨offset, fixup⟩ := head
    cases fixup with
    | bind | authBind => exact ih.cons_cons offset
    | rebase | authRebase => exact ih.cons offset

theorem segmentBinds_offsets (i : Nat) (segments : List (Option SegmentLayout)) :
    ((segmentBinds i segments).map ChainedBind.slotImageOffset).Sublist
      ((segments.filterMap id).flatMap fun segment ↦ segment.fixups.map Prod.fst) := by
  induction segments generalizing i with
  | nil => exact List.Sublist.refl _
  | cons head rest ih =>
    cases head with
    | none => exact ih (i + 1)
    | some segment =>
      rw [segmentBinds, List.map_append]
      exact (reports_offsets segment.format i segment.fixups).append (ih (i + 1))

theorem Layout.binds_nodup (layout : Layout) :
    (layout.binds.map ChainedBind.slotImageOffset).Nodup :=
  layout.distinct.sublist (segmentBinds_offsets 0 layout.segments)

theorem Layout.EncodedAt.binds_nil {fixups : ChainedFixups} {storage : List Byte} {layout : Layout}
    (h : layout.EncodedAt fixups storage (some [])) : layout.binds = [] := by
  have hnone (segment : SegmentLayout) (hmem : some segment ∈ layout.segments) : False := by
    obtain ⟨i, hget⟩ := List.mem_iff_getElem?.mp hmem
    obtain ⟨_, mapping, -, -, hbacks, -⟩ := h.segment i segment hget
    have hget : ([] : List SegmentMapping)[i]? = some mapping := hbacks
    cases hget
  have hall (i : Nat) (segments : List (Option SegmentLayout))
      (hsub : ∀ segment, segment ∈ segments → segment ∈ layout.segments) :
      segmentBinds i segments = [] := by
    induction segments generalizing i with
    | nil => rfl
    | cons head rest ih =>
      cases head with
      | none => exact ih (i + 1) fun segment hmem ↦ hsub segment (List.mem_cons_of_mem _ hmem)
      | some segment => exact (hnone segment (hsub _ List.mem_cons_self)).elim
  exact hall 0 layout.segments fun _ hmem ↦ hmem

/-! ## The claim -/

/-- **Decoding inverts encoding**: a visitor that never stops is handed the binds of the layout, one
after the other, and no two of them are at one place.  The file walk refuses an empty table of
mappings, which can only back a layout without fixups. -/
theorem iterateBinds_encoded (fixups : ChainedFixups) (storage : List Byte) (layout : Layout)
    (visit : Visit σ) (hvisit : ∀ s bind, (visit s bind).1 = true) (s : σ) :
    (layout.binds.map ChainedBind.slotImageOffset).Nodup ∧
    (layout.EncodedAt fixups storage none →
      iterateBinds fixups storage visit s = some (.ok, visitAll visit s layout.binds)) ∧
    ∀ mappings, layout.EncodedAt fixups storage (some mappings) →
      ∃ status, iterateFileBinds fixups storage mappings visit s =
        some (status, visitAll visit s layout.binds) ∧ (mappings ≠ [] → status = .ok) := by
  refine ⟨layout.binds_nodup, fun h ↦ iterate_encoded h nofun hvisit s, fun mappings h ↦ ?_⟩
  by_cases hmappings : mappings = []
  · subst hmappings
    exact ⟨.invalidArgument, by rw [h.binds_nil]; rfl, fun hne ↦ absurd rfl hne⟩
  · exact ⟨.ok, iterate_encoded h (by simpa using hmappings) hvisit s, fun _ ↦ rfl⟩

/-! ### A page with two chains -/

/-- A bind linked to a rebase, and an authenticated bind on its own. -/
def twoChains : SegmentLayout where
  format := .arm64e
  imageOffset := 0
  pageSize := 32
  pages := [[[(0, .bind 5 (-1)), (8, .rebase 7)], [(16, .authBind 6 0x1234 2 true)]]]

def twoChainsLayout : Layout where
  segments := [none, some twoChains]
  distinct := by decide

def twoChainsStorage : List Byte :=
  littleEndian 8 (Fixup.word .arm64e 1 (.bind 5 (-1))) ++
    littleEndian 8 (Fixup.word .arm64e 0 (.rebase 7)) ++
    littleEndian 8 (Fixup.word .arm64e 0 (.authBind 6 0x1234 2 true))

/-- The starts at offset 12: the header, the start of the page and its overflow list. -/
def twoChainsFixups : ChainedFixups where
  blob :=
    littleEndian 4 2 ++ littleEndian 4 0 ++ littleEndian 4 12 ++
      (littleEndian 4 28 ++ littleEndian 2 32 ++ littleEndian 2 1 ++ littleEndian 8 0 ++
        littleEndian 4 0 ++ littleEndian 2 1) ++
      littleEndian 2 0x8001 ++ littleEndian 2 0 ++ littleEndian 2 0x8010
  fixupsVersion := 0
  startsOffset := 0
  importsOffset := 40
  symbolsOffset := 40
  importsCount := 0
  importsFormat := 1
  symbolsFormat := 0
  importEntrySize := 4
  symbolsSize := 0

theorem twoChains_at :
    SegmentAt twoChainsFixups.blob twoChainsStorage ⟨0, 0, 24⟩ 12 twoChains where
  size := by
    refine ⟨6, ⟨by decide, by decide⟩, by decide, by decide, ?_⟩
    intro page chains hget
    obtain ⟨rfl, rfl⟩ : page = 0 ∧ chains = [[(0, .bind 5 (-1)), (8, .rebase 7)],
        [(16, .authBind 6 0x1234 2 true)]] := by
      cases page with
      | zero => exact ⟨rfl, (Option.some.inj hget).symm⟩
      | succ page => cases hget
    have first : FixupAt twoChainsStorage ⟨0, 0, 24⟩ 32 .arm64e 1 0 (.bind 5 (-1)) :=
      ⟨⟨by decide, by decide⟩, by decide, by decide, by decide, by decide, by decide, by decide⟩
    have second : FixupAt twoChainsStorage ⟨0, 0, 24⟩ 32 .arm64e 0 8 (.rebase 7) :=
      ⟨show 7 < 2 ^ 51 by decide, by decide, by decide, by decide, by decide, by decide, by decide⟩
    have third : FixupAt twoChainsStorage ⟨0, 0, 24⟩ 32 .arm64e 0 16 (.authBind 6 0x1234 2 true) :=
      ⟨⟨by decide, by decide, by decide, by decide⟩, by decide, by decide, by decide, by decide,
        by decide, by decide⟩
    refine .multi (by decide : startMulti + 1 < startNone) ⟨by decide, by decide⟩ ?_
    refine .more (by decide) (by decide : 0 < startLast) ⟨by decide, by decide⟩
      (.link (by decide) first (.last second)) ?_
    exact .last (by decide) (by decide : 16 < startLast) ⟨by decide, by decide⟩ (.last third)
  pageSize := ⟨by decide, by decide, by decide⟩
  format := ⟨by decide, by decide⟩
  imageOffset := ⟨by decide, by decide⟩
  pageCount := ⟨by decide, by decide⟩
  addressable := by decide
  mapped := rfl

theorem twoChains_encoded {segments : Option (List SegmentMapping)}
    (hbacks : Backs twoChainsStorage segments 1 0 ⟨0, 0, 24⟩) :
    twoChainsLayout.EncodedAt twoChainsFixups twoChainsStorage segments where
  count := ⟨by decide, by decide⟩
  table := by decide
  without i hget := by
    match i with
    | 0 => exact ⟨by decide, by decide⟩
    | 1 => cases hget
    | i + 2 => cases hget
  segment i segment hget := by
    match i with
    | 0 => cases hget
    | 1 =>
      cases hget
      exact ⟨12, _, by decide, ⟨by decide, by decide⟩, hbacks, twoChains_at⟩
    | i + 2 => cases hget

/-- Both walks report the two binds, the image's own pointer left out. -/
theorem iterateBinds_encoded_twoChains :
    let visit : Visit (List ChainedBind) := fun s bind ↦ (true, s ++ [bind])
    let binds : List ChainedBind := [⟨0, 5, 1, 1, false, 0, 0, false, -1⟩,
      ⟨16, 6, 1, 1, true, 2, 0x1234, true, 0⟩]
    iterateBinds twoChainsFixups twoChainsStorage visit [] = some (.ok, binds) ∧
      ∃ status, iterateFileBinds twoChainsFixups twoChainsStorage [⟨0, 0, 0⟩, ⟨0, 0, 24⟩] visit [] =
        some (status, binds) ∧ status = .ok := by
  intro visit binds
  obtain ⟨-, hloaded, hfile⟩ := iterateBinds_encoded twoChainsFixups twoChainsStorage
    twoChainsLayout visit (fun _ _ ↦ rfl) []
  obtain ⟨status, hwalk, hok⟩ := hfile [⟨0, 0, 0⟩, ⟨0, 0, 24⟩] (twoChains_encoded rfl)
  exact ⟨hloaded (twoChains_encoded rfl), status, hwalk, hok (by decide)⟩

end HookKit.Chained
