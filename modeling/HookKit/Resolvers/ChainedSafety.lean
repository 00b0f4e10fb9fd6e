import HookKit.Lib.Checked
import HookKit.Resolvers.ChainedLayout

/-!
# Chained fixups of arbitrary bytes

What the functions of `HKChainedFixups.c` do with bytes that nobody has checked: they end, they read
inside the buffers only, and what they report lies inside as well.

* `Reported` — which binds a walk has shown its visitor.
* `Locates` — a bind lies inside its segment, and inside the storage of the segment.
* `parse_safe`, `importAt_safe`, `iterate_safe` — one lemma for each function.
* `robustFixups` — all of it together.
-/

set_option autoImplicit false

namespace HookKit.Chained

open LittleEndian Checked

variable {σ : Type}

/-! ## The header and the imports -/

/-- A handle for a blob that was accepted. -/
def Accepted (fixups : ChainedFixups) : Prop := ∃ blob, parse blob = some (.ok fixups)

/-- What the header's checks establish. -/
structure WellFormed (fixups : ChainedFixups) : Prop where
  entrySize : fixups.importEntrySize = importEntrySize fixups.importsFormat
  starts : fixups.startsOffset ≤ fixups.blob.length
  imports : fixups.importsOffset + fixups.importsCount * fixups.importEntrySize ≤ fixups.blob.length
  symbols : fixups.symbolsOffset + fixups.symbolsSize = fixups.blob.length

theorem parse_safe (blob : List Byte) :
    Safe (parse blob) fun r ↦ ∀ fixups, r = .ok fixups →
      fixups.blob = blob ∧ WellFormed fixups := by
  rw [parse]
  refine .ite (fun _ ↦ .some nofun) fun hsize ↦ ?_
  rw [headerSize] at hsize
  iterate 7 refine .bind (.read (by omega)) fun _ _ ↦ ?_
  refine .ite (fun _ ↦ .some nofun) fun _ ↦ .ite (fun _ ↦ .some nofun) fun _ ↦
    .ite (fun _ ↦ .some nofun) fun _ ↦ .ite (fun _ ↦ .some nofun) fun hoffsets ↦
    .ite (fun _ ↦ .some nofun) fun himports ↦ .some fun fixups heq ↦ ?_
  cases heq
  refine ⟨rfl, rfl, ?_, ?_, ?_⟩ <;> dsimp only <;> omega

theorem Accepted.wellFormed {fixups : ChainedFixups} (h : Accepted fixups) : WellFormed fixups := by
  obtain ⟨blob, hparse⟩ := h
  exact ((parse_safe blob).of_eq hparse fixups rfl).2

theorem scanNul_safe (blob : List Byte) (left position : Nat) (h : position + left ≤ blob.length) :
    Safe (scanNul blob left position) fun found ↦ found = true →
      ∃ k < left, readLE 1 blob (position + k) = some 0 := by
  induction left generalizing position with
  | zero => exact .some nofun
  | succ left ih =>
    rw [scanNul]
    obtain ⟨byte, hread, -⟩ := @readLE_some 1 position blob (by omega)
    rw [hread]
    simp only [Option.bind_eq_bind, Option.bind_some]
    refine .ite (fun hzero ↦ .some fun _ ↦ ?_) fun _ ↦ ?_
    · exact ⟨0, Nat.succ_pos _, by rw [Nat.add_zero, hread, hzero]⟩
    · refine (ih (position + 1) (by omega)).mono fun found hfound htrue ↦ ?_
      obtain ⟨k, hk, hnul⟩ := hfound htrue
      exact ⟨k + 1, Nat.succ_lt_succ hk, by rwa [← Nat.add_assoc, Nat.add_right_comm]⟩

/-- A NUL-terminated string begins at a position of the symbol pool, and the NUL lies in the pool
too. -/
def ChainedFixups.NameAt (fixups : ChainedFixups) (name : Nat) : Prop :=
  fixups.symbolsOffset ≤ name ∧
    ∃ k, name + k < fixups.symbolsOffset + fixups.symbolsSize ∧
      readLE 1 fixups.blob (name + k) = some 0

theorem poolString_safe {fixups : ChainedFixups} (h : WellFormed fixups) (offset : Nat) :
    Safe (poolString fixups.blob fixups.symbolsOffset fixups.symbolsSize offset) fun r ↦
      ∀ name, r = some name → fixups.NameAt name := by
  have hpool := h.symbols
  rw [poolString]
  refine .ite (fun _ ↦ .some nofun) fun hoffset ↦ ?_
  refine .bind (scanNul_safe fixups.blob _ _ (by omega)) fun found hfound ↦ .some fun name heq ↦ ?_
  split at heq
  · cases heq
    obtain ⟨k, hk, hnul⟩ := hfound ‹_›
    exact ⟨by omega, k, by omega, hnul⟩
  · cases heq

/-- The entry of an import can be read whenever it lies inside the blob. -/
theorem importEntry_safe {fixups : ChainedFixups} {entry : Nat}
    (h : entry + importEntrySize fixups.importsFormat ≤ fixups.blob.length) :
    Safe (importEntry fixups entry) fun _ ↦ True := by
  have haddend : Safe (entryAddend fixups entry) fun _ ↦ True := by
    rw [entryAddend]
    refine .ite (fun hformat ↦ ?_) fun _ ↦ .some trivial
    rw [hformat] at h
    exact .bind (.read h) fun _ _ ↦ .some trivial
  rw [importEntry]
  refine .ite (fun hformat ↦ ?_) fun _ ↦ .ite (fun hformat ↦ ?_) fun _ ↦ .some trivial
  · have hword : entry + 4 ≤ fixups.blob.length := by
      rcases hformat with hformat | hformat
      · rwa [hformat] at h
      · have hsize : entry + 8 ≤ fixups.blob.length := by rwa [hformat] at h
        omega
    exact .bind (.read hword) fun _ _ ↦ .bind haddend fun _ _ ↦ .some trivial
  · have hsize : entry + 16 ≤ fixups.blob.length := by rwa [hformat] at h
    exact .bind (.read (by omega)) fun _ _ ↦ .bind (.read (by omega)) fun _ _ ↦ .some trivial

/-- **An import of an accepted blob.**  Its entry lies inside the blob, and its name in the symbol
pool. -/
theorem importAt_safe {fixups : ChainedFixups} (h : WellFormed fixups) (index : Nat) :
    Safe (importAt fixups index) fun r ↦ ∀ import', r = .ok import' →
      fixups.NameAt import'.symbolName := by
  rw [importAt]
  refine .ite (fun _ ↦ .some nofun) fun hindex ↦ ?_
  have hentry : fixups.importsOffset + index * fixups.importEntrySize +
      importEntrySize fixups.importsFormat ≤ fixups.blob.length := by
    have hrow : (index + 1) * fixups.importEntrySize ≤
        fixups.importsCount * fixups.importEntrySize := Nat.mul_le_mul_right _ (by omega)
    have himports := h.imports
    rw [Nat.succ_mul, h.entrySize] at hrow
    rw [h.entrySize] at himports ⊢
    omega
  refine .bind (importEntry_safe hentry) fun fields _ ↦ ?_
  cases fields with
  | none => exact .some nofun
  | some fields =>
    refine .bind (poolString_safe h fields.2.2.1) fun name hname ↦ ?_
    cases name with
    | none => exact .some nofun
    | some symbolName =>
      refine .some fun import' heq ↦ ?_
      cases heq
      exact hname symbolName rfl

/-! ## What a walk reports -/

/-- The binds a visitor is shown, one after the other; in the end it may ask to stop. -/
inductive Reported (visit : Visit σ) : List ChainedBind → σ → Bool → σ → Prop where
  | nil (s : σ) : Reported visit [] s false s
  | stop {b : ChainedBind} {s s' : σ} (h : visit s b = (false, s')) : Reported visit [b] s true s'
  | next {b : ChainedBind} {rest : List ChainedBind} {s s' s'' : σ} {stopped : Bool}
      (h : visit s b = (true, s')) (hrest : Reported visit rest s' stopped s'') :
      Reported visit (b :: rest) s stopped s''

theorem Reported.append {visit : Visit σ} {binds binds' : List ChainedBind} {s s' s'' : σ}
    {stopped going : Bool} (h : Reported visit binds s going s') (hgoing : going = false)
    (h' : Reported visit binds' s' stopped s'') :
    Reported visit (binds ++ binds') s stopped s'' := by
  induction h with
  | nil => exact h'
  | stop h => cases hgoing
  | next h _ ih => exact .next h (ih hgoing h')

/-- The walk has shown the visitor binds that satisfy `P`, and nothing else. -/
def Reports (visit : Visit σ) (P : ChainedBind → Prop) (s : σ) (walked : Walked σ) : Prop :=
  ∃ binds, Reported visit binds s walked.2.1 walked.2.2 ∧ ∀ b ∈ binds, P b

theorem Reports.nothing (visit : Visit σ) (P : ChainedBind → Prop)
    (status : ChainedStatus) (s : σ) :
    Reports visit P s (status, false, s) := ⟨[], .nil s, nofun⟩

theorem Reports.mono {visit : Visit σ} {P Q : ChainedBind → Prop} {s : σ} {walked : Walked σ}
    (h : Reports visit P s walked) (himp : ∀ b, P b → Q b) : Reports visit Q s walked := by
  obtain ⟨binds, hbinds, hall⟩ := h
  exact ⟨binds, hbinds, fun b hb ↦ himp b (hall b hb)⟩

theorem Reports.append {visit : Visit σ} {P : ChainedBind → Prop} {s s' : σ}
    {status : ChainedStatus} {walked : Walked σ} (h : Reports visit P s (status, false, s'))
    (h' : Reports visit P s' walked) : Reports visit P s walked := by
  obtain ⟨binds, hbinds, hall⟩ := h
  obtain ⟨binds', hbinds', hall'⟩ := h'
  exact ⟨binds ++ binds', hbinds.append rfl hbinds',
    fun b hb ↦ (List.mem_append.mp hb).elim (hall b) (hall' b)⟩

/-- One part of a walk, and what follows when it has come to its end. -/
theorem Reports.andThen {visit : Visit σ} {P : ChainedBind → Prop} {s : σ}
    {part : Option (Walked σ)} {next : σ → Option (Walked σ)}
    (hpart : Safe part (Reports visit P s))
    (hnext : ∀ s', Safe (next s') (Reports visit P s')) :
    Safe (match part with
      | some (.ok, false, s') => next s'
      | ended => ended) (Reports visit P s) := by
  obtain ⟨⟨status, stopped, s'⟩, rfl, hreports⟩ := hpart
  split
  · rename_i s'' heq
    cases heq
    exact (hnext _).mono fun walked hwalked ↦ hreports.append hwalked
  · exact .some hreports

/-! ## Chains -/

/-- The 8 bytes at an offset lie inside the segment and inside its storage. -/
structure ChainCtx.Slot (c : ChainCtx) (offset : Nat) : Prop where
  start : c.segmentStart ≤ offset
  inSegment : offset + 8 ≤ c.segmentEnd
  inStorage : offset - c.segmentStart + 8 ≤ c.storageSegmentSize
  readable : c.storageSegmentStart + (offset - c.segmentStart) + 8 ≤ c.storage.length

/-- A bind of the segment that is being walked. -/
def ChainCtx.Reportable (c : ChainCtx) (b : ChainedBind) : Prop :=
  b.segmentIndex = c.segmentIndex ∧ c.Slot b.slotImageOffset

theorem visitPtr_reports {c : ChainCtx} {visit : Visit σ} {offset : Nat} {ptr : ChainedPtr}
    {s s' : σ} {more : Bool} (h : visitPtr c visit offset ptr s = (more, s'))
    (hslot : c.Slot offset)
    (status : ChainedStatus) : Reports visit c.Reportable s (status, !more, s') := by
  rw [visitPtr] at h
  split at h
  · cases more with
    | false => exact ⟨[_], .stop h, List.forall_mem_singleton.mpr ⟨rfl, hslot⟩⟩
    | true => exact ⟨[_], .next h (.nil s'), List.forall_mem_singleton.mpr ⟨rfl, hslot⟩⟩
  · cases h
    exact .nothing visit _ status s

/-- A chain ends, since every link leads further on in the segment. -/
theorem walkChain_safe (c : ChainCtx) (visit : Visit σ) (passes offset : Nat)
    (hpasses : c.segmentEnd - offset < passes) (s : σ) :
    Safe (walkChain c visit passes offset s) (Reports visit c.Reportable s) := by
  induction passes generalizing offset s with
  | zero => omega
  | succ passes ih =>
    rw [walkChain]
    refine .ite (fun _ ↦ .some (.nothing ..)) fun hsegment ↦ ?_
    refine .ite (fun _ ↦ .some (.nothing ..)) fun hstorage ↦ ?_
    have hslot : c.Slot offset := ⟨by omega, by omega, by omega, by omega⟩
    obtain ⟨raw, hraw, -⟩ := readLE_some hslot.readable
    rw [hraw]
    dsimp only
    generalize decodePointer raw c.pointerFormat = ptr
    rcases hvisit : visitPtr c visit offset ptr s with ⟨more, s'⟩
    have hreports := visitPtr_reports hvisit hslot
    cases more with
    | false => exact .some (hreports .ok)
    | true =>
      refine .ite (fun _ ↦ .some (hreports .ok)) fun _ ↦ .ite (fun _ ↦ .some (hreports .malformed))
        fun hadvanced ↦ ?_
      have hinside := hslot.inSegment
      exact (ih _ (by omega) s').mono fun walked ↦ (hreports .ok).append

theorem walkMulti_safe (c : ChainCtx) (visit : Visit σ) {blob : List Byte}
    {pageStart startsExtent : Nat} (hextent : pageStart + startsExtent ≤ blob.length)
    (pageBase passes index : Nat) (hpasses : startsExtent < passes + index * 2) (hpos : 0 < passes)
    (s : σ) :
    Safe (walkMulti c visit blob pageStart startsExtent pageBase passes index s)
      (Reports visit c.Reportable s) := by
  induction passes generalizing index s with
  | zero => omega
  | succ passes ih =>
    rw [walkMulti]
    refine .ite (fun _ ↦ .some (.nothing ..)) fun hindex ↦ ?_
    obtain ⟨entry, hentry, -⟩ := @readLE_some 2 (pageStart + index * 2) blob (by omega)
    rw [hentry]
    refine Reports.andThen (walkChain_safe c visit _ _ (Nat.lt_succ_self _) s) fun s' ↦ ?_
    refine .ite (fun _ ↦ .some (.nothing ..)) fun _ ↦ ?_
    exact ih (index + 1) (by omega) (by omega) s'

theorem walkPages_safe (c : ChainCtx) (visit : Visit σ) {blob : List Byte}
    {pageStart startsExtent : Nat} (hextent : pageStart + startsExtent ≤ blob.length)
    (pageSize left page : Nat) (hpages : (page + left) * 2 ≤ startsExtent) (s : σ) :
    Safe (walkPages c visit blob pageStart startsExtent pageSize left page s)
      (Reports visit c.Reportable s) := by
  induction left generalizing page s with
  | zero => exact .some (.nothing ..)
  | succ left ih =>
    rw [walkPages]
    obtain ⟨start, hstart, -⟩ := @readLE_some 2 (pageStart + page * 2) blob (by omega)
    rw [hstart]
    refine Reports.andThen ?_ fun s' ↦ ih (page + 1) (by omega) s'
    refine .ite (fun _ ↦ .some (.nothing ..)) fun _ ↦ .ite (fun _ ↦ ?_) fun _ ↦ ?_
    · exact walkMulti_safe c visit hextent _ _ _ (by omega) (Nat.succ_pos _) s
    · exact walkChain_safe c visit _ _ (Nat.lt_succ_self _) s

/-! ## Segments -/

/-- Where the segment whose starts stand at a position begins in the image, and how large it is. -/
def spanAt (blob : List Byte) (position : Nat) : Option (Nat × Nat) := do
  let pageSize ← readLE 2 blob (position + 4)
  let segmentOff ← readLE 8 blob (position + 8)
  let pageCount ← readLE 2 blob (position + 20)
  some (segmentOff, pageCount * pageSize)

/-- The span of a segment as the blob declares it. -/
def segmentSpan (fixups : ChainedFixups) (i : Nat) : Option (Nat × Nat) := do
  let info ← readLE 4 fixups.blob (fixups.startsOffset + 4 + i * 4)
  spanAt fixups.blob (fixups.startsOffset + info)

/-- The 8 bytes at an image offset lie inside the span of a segment and inside its storage. -/
structure SlotIn (storage : List Byte) (mapping : SegmentMapping) (size offset : Nat) : Prop where
  start : mapping.imageOffset ≤ offset
  inSegment : offset + 8 ≤ mapping.imageOffset + size
  inStorage : offset - mapping.imageOffset + 8 ≤ mapping.fileSize
  readable : mapping.fileOffset + (offset - mapping.imageOffset) + 8 ≤ storage.length

/-- Where the bytes of a segment are that begins at `start`: with no table of mappings, in the
storage at that very place. -/
def mappingOf (storage : List Byte) (mapping : Option SegmentMapping) (start : Nat) :
    SegmentMapping :=
  mapping.getD ⟨start, start, storage.length - start⟩

theorem mappingOf_imageOffset {mapping : Option SegmentMapping} {start : Nat}
    (h : ¬ mapping.any (fun m ↦ m.imageOffset ≠ start) = true) (storage : List Byte) :
    (mappingOf storage mapping start).imageOffset = start := by
  cases mapping with
  | none => rfl
  | some m => simpa [mappingOf] using h

theorem walkSegment_safe (fixups : ChainedFixups) (storage : List Byte)
    (mapping : Option SegmentMapping) (position i : Nat) (visit : Visit σ) (s : σ) :
    Safe (walkSegment fixups storage mapping position i visit s)
      (Reports visit (fun b ↦ b.segmentIndex = i ∧ ∃ start size,
        spanAt fixups.blob position = some (start, size) ∧
        (mappingOf storage mapping start).imageOffset = start ∧
        SlotIn storage (mappingOf storage mapping start) size b.slotImageOffset) s) := by
  rw [walkSegment]
  refine .ite (fun _ ↦ .some (.nothing ..)) fun hposition ↦ ?_
  rw [startsInSegmentHeader] at hposition
  refine .bind (.read (by omega)) fun declaredSize _ ↦ ?_
  refine .step (.read (by omega)) fun pageSize hpageSize _ ↦
    .bind (.read (by omega)) fun ptrFormat _ ↦
    .step (.read (by omega)) fun segmentOff hsegmentOff _ ↦
    .step (.read (by omega)) fun pageCount hpageCount _ ↦ ?_
  have hspan : spanAt fixups.blob position = some (segmentOff, pageCount * pageSize) := by
    rw [spanAt, hpageSize, hsegmentOff, hpageCount]
    rfl
  refine .ite (fun _ ↦ .some (.nothing ..)) fun _ ↦ .ite (fun _ ↦ .some (.nothing ..)) fun _ ↦
    .ite (fun _ ↦ .some (.nothing ..)) fun hdeclared ↦
    .ite (fun _ ↦ .some (.nothing ..)) fun hextent ↦ .ite (fun _ ↦ .some (.nothing ..)) fun hpages ↦
    .ite (fun _ ↦ .some (.nothing ..)) fun hmapping ↦ .ite (fun _ ↦ .some (.nothing ..)) fun _ ↦ ?_
  rw [startsInSegmentHeader] at *
  refine (walkPages_safe _ visit (by omega) pageSize pageCount 0 (by omega) s).mono fun walked h ↦
    h.mono fun b hreport ↦ ⟨hreport.1, segmentOff, _, hspan, ?_⟩
  have himage := mappingOf_imageOffset hmapping storage
  obtain ⟨hstart, hinSegment, hinStorage, hreadable⟩ := hreport.2
  dsimp only at hstart hinSegment hinStorage hreadable
  refine ⟨himage, ?_, ?_, ?_, ?_⟩ <;> try rw [himage]
  · exact hstart
  · exact hinSegment
  · cases mapping with
    | none =>
      simp only [Option.map_none, Option.getD_none] at hinStorage
      simp only [mappingOf, Option.getD_none]
      omega
    | some m => exact hinStorage
  · cases mapping <;> exact hreadable

/-- A segment of the image, its size, and where its bytes are. -/
def Segment (fixups : ChainedFixups) (storage : List Byte) (segments : Option (List SegmentMapping))
    (i size : Nat) (mapping : SegmentMapping) : Prop :=
  segmentSpan fixups i = some (mapping.imageOffset, size) ∧
    Backs storage segments i mapping.imageOffset mapping

/-- A reported location lies inside its segment's span and inside the segment's storage. -/
def Locates (fixups : ChainedFixups) (storage : List Byte) (segments : Option (List SegmentMapping))
    (b : ChainedBind) : Prop :=
  ∃ size mapping, Segment fixups storage segments b.segmentIndex size mapping ∧
    SlotIn storage mapping size b.slotImageOffset

/-- The entry of a table of mappings, if there is a table, is the storage of the segment. -/
theorem mappingOf_backs {storage : List Byte} {segments : Option (List SegmentMapping)} {i : Nat}
    (h : ¬ segments.any (fun mappings ↦ i ≥ mappings.length) = true) (start : Nat) :
    Backs storage segments i start
      (mappingOf storage (segments.bind fun mappings ↦ mappings[i]?) start) := by
  cases segments with
  | none => rfl
  | some mappings =>
    simp only [Option.any_some, ge_iff_le, decide_eq_true_eq, Nat.not_le] at h
    show mappings[i]? = some ((mappings[i]?).getD _)
    rw [List.getElem?_eq_getElem h]
    rfl

theorem walkSegments_safe {fixups : ChainedFixups} (storage : List Byte)
    (segments : Option (List SegmentMapping)) (visit : Visit σ) (left i : Nat)
    (hleft : fixups.startsOffset + 4 + (i + left) * 4 ≤ fixups.blob.length) (s : σ) :
    Safe (walkSegments fixups storage segments visit left i s)
      (Reports visit (Locates fixups storage segments) s) := by
  induction left generalizing i s with
  | zero => exact .some (.nothing ..)
  | succ left ih =>
    rw [walkSegments]
    obtain ⟨info, hinfo, -⟩ :=
      @readLE_some 4 (fixups.startsOffset + 4 + i * 4) fixups.blob (by omega)
    rw [hinfo]
    refine .ite (fun _ ↦ ih (i + 1) (by omega) s) fun _ ↦ ?_
    refine .ite (fun _ ↦ .some (.nothing ..)) fun hmappings ↦
      .ite (fun _ ↦ .some (.nothing ..)) fun _ ↦ ?_
    refine Reports.andThen ?_ fun s' ↦ ih (i + 1) (by omega) s'
    refine (walkSegment_safe fixups storage _ _ i visit s).mono fun walked h ↦ h.mono ?_
    rintro b ⟨hindex, start, size, hspan, hstart, hslot⟩
    have hbacks := @mappingOf_backs storage segments i hmappings start
    generalize mappingOf storage (segments.bind fun mappings ↦ mappings[i]?) start = mapping at *
    subst hindex hstart
    refine ⟨size, mapping, ⟨?_, hbacks⟩, hslot⟩
    rw [segmentSpan, hinfo]
    exact hspan

/-- **The walk over arbitrary bytes.**  It ends, and every location it reports lies inside its
segment and inside the segment's storage. -/
theorem iterate_safe (fixups : ChainedFixups) (storage : List Byte)
    (segments : Option (List SegmentMapping)) (visit : Visit σ) (s : σ) :
    Safe (iterate fixups storage segments visit s) fun r ↦
      ∃ binds stopped, Reported visit binds s stopped r.2 ∧
        ∀ b ∈ binds, Locates fixups storage segments b := by
  rw [iterate]
  refine .ite (fun _ ↦ .some ⟨[], false, .nil s, by simp⟩) fun _ ↦
    .ite (fun _ ↦ .some ⟨[], false, .nil s, by simp⟩) fun hstarts ↦ ?_
  refine .bind (.read (by omega)) fun segCount _ ↦
    .ite (fun _ ↦ .some ⟨[], false, .nil s, by simp⟩) fun htable ↦ ?_
  refine .bind (walkSegments_safe storage segments visit segCount 0 (by omega) s)
    fun walked hwalked ↦ ?_
  obtain ⟨binds, hbinds, hall⟩ := hwalked
  exact .some ⟨binds, walked.2.1, hbinds, hall⟩

/-! ## What the walk depends on -/

/-- The byte at a position belongs to the storage of the segment that is being walked. -/
def ChainCtx.Covers (c : ChainCtx) (position : Nat) : Prop :=
  c.storageSegmentStart ≤ position ∧
    position < c.storageSegmentStart + min c.storageSegmentSize (c.segmentEnd - c.segmentStart)

variable {c : ChainCtx} {storage' : List Byte}

/-- The walk along a chain sees nothing but the storage of its segment. -/
theorem walkChain_congr (hlength : storage'.length = c.storage.length)
    (hsame : ∀ p, c.Covers p → storage'[p]? = c.storage[p]?) (visit : Visit σ)
    (passes offset : Nat) (s : σ) :
    walkChain { c with storage := storage' } visit passes offset s =
      walkChain c visit passes offset s := by
  induction passes generalizing offset s with
  | zero => rfl
  | succ passes ih =>
    rw [walkChain, walkChain]
    dsimp only
    rw [hlength]
    refine ite_congr rfl (fun _ ↦ rfl) fun hsegment ↦ ite_congr rfl (fun _ ↦ rfl) fun hstorage ↦ ?_
    have hread : readLE 8 storage' (c.storageSegmentStart + (offset - c.segmentStart)) =
        readLE 8 c.storage (c.storageSegmentStart + (offset - c.segmentStart)) :=
      readLE_congr fun k hk ↦ hsame _ ⟨by omega, by omega⟩
    rw [hread]
    simp only [ih]
    rfl

theorem walkMulti_congr (hlength : storage'.length = c.storage.length)
    (hsame : ∀ p, c.Covers p → storage'[p]? = c.storage[p]?) (visit : Visit σ) (blob : List Byte)
    (pageStart startsExtent pageBase passes index : Nat) (s : σ) :
    walkMulti { c with storage := storage' } visit blob pageStart startsExtent
    pageBase passes index s =
      walkMulti c visit blob pageStart startsExtent pageBase passes index s := by
  induction passes generalizing index s with
  | zero => rfl
  | succ passes ih =>
    rw [walkMulti, walkMulti]
    simp only [walkChain_congr hlength hsame, ih]
    rfl

theorem walkPages_congr (hlength : storage'.length = c.storage.length)
    (hsame : ∀ p, c.Covers p → storage'[p]? = c.storage[p]?) (visit : Visit σ) (blob : List Byte)
    (pageStart startsExtent pageSize left page : Nat) (s : σ) :
    walkPages { c with storage := storage' } visit blob pageStart startsExtent
    pageSize left page s =
      walkPages c visit blob pageStart startsExtent pageSize left page s := by
  induction left generalizing page s with
  | zero => rfl
  | succ left ih =>
    rw [walkPages, walkPages]
    simp only [walkChain_congr hlength hsame, walkMulti_congr hlength hsame, ih]
    rfl

theorem walkSegment_congr {fixups : ChainedFixups} {storage : List Byte}
    {mapping : Option SegmentMapping} {position : Nat}
    (hlength : storage'.length = storage.length)
    (hsame : ∀ start size p, spanAt fixups.blob position = some (start, size) →
      (mappingOf storage mapping start).imageOffset = start →
      (mappingOf storage mapping start).fileOffset ≤ p →
      p < (mappingOf storage mapping start).fileOffset +
        min (mappingOf storage mapping start).fileSize size → storage'[p]? = storage[p]?)
    (i : Nat) (visit : Visit σ) (s : σ) :
    walkSegment fixups storage' mapping position i visit s =
      walkSegment fixups storage mapping position i visit s := by
  rw [walkSegment, walkSegment, hlength]
  dsimp only
  refine ite_congr rfl (fun _ ↦ rfl) fun hposition ↦ ?_
  refine Option.bind_congr fun declaredSize _ ↦ Option.bind_congr fun pageSize hpageSize ↦
    Option.bind_congr fun ptrFormat _ ↦ Option.bind_congr fun segmentOff hsegmentOff ↦
    Option.bind_congr fun pageCount hpageCount ↦ ?_
  have hspan : spanAt fixups.blob position = some (segmentOff, pageCount * pageSize) := by
    rw [spanAt, hpageSize, hsegmentOff, hpageCount]
    rfl
  refine ite_congr rfl (fun _ ↦ rfl) fun _ ↦ ite_congr rfl (fun _ ↦ rfl) fun _ ↦
    ite_congr rfl (fun _ ↦ rfl) fun _ ↦ ite_congr rfl (fun _ ↦ rfl) fun _ ↦
    ite_congr rfl (fun _ ↦ rfl) fun _ ↦ ite_congr rfl (fun _ ↦ rfl) fun hmapping ↦
    ite_congr rfl (fun _ ↦ rfl) fun _ ↦ ?_
  refine walkPages_congr (c := ⟨storage, _, _, _, _, _, _, _⟩) hlength (fun p hp ↦ ?_) ..
  obtain ⟨hstart, hend⟩ := hp
  dsimp only at hstart hend
  refine hsame _ _ p hspan (mappingOf_imageOffset hmapping storage) ?_ ?_
  · cases mapping <;> exact hstart
  · cases mapping with
    | none =>
      simp only [Option.map_none] at hend
      simp only [mappingOf, Option.getD_none]
      omega
    | some m =>
      simp only [Option.map_some] at hend
      simp only [mappingOf, Option.getD_some]
      omega

theorem walkSegments_congr {fixups : ChainedFixups} {storage : List Byte}
    {segments : Option (List SegmentMapping)} (hlength : storage'.length = storage.length)
    (hsame : ∀ i size mapping p, Segment fixups storage segments i size mapping →
      mapping.fileOffset ≤ p → p < mapping.fileOffset + min mapping.fileSize size →
      storage'[p]? = storage[p]?) (visit : Visit σ) (left i : Nat) (s : σ) :
    walkSegments fixups storage' segments visit left i s =
      walkSegments fixups storage segments visit left i s := by
  induction left generalizing i s with
  | zero => rfl
  | succ left ih =>
    rw [walkSegments, walkSegments]
    cases hinfo : readLE 4 fixups.blob (fixups.startsOffset + 4 + i * 4) with
    | none => rfl
    | some info =>
      dsimp only
      refine ite_congr rfl (fun _ ↦ ih (i + 1) s) fun _ ↦
        ite_congr rfl (fun _ ↦ rfl) fun hmappings ↦
        ite_congr rfl (fun _ ↦ rfl) fun _ ↦ ?_
      rw [walkSegment_congr hlength ?_]
      · simp only [ih]
      · intro start size p hspan hstart
        have hbacks := @mappingOf_backs storage segments i hmappings start
        generalize mappingOf storage (segments.bind fun mappings ↦ mappings[i]?) start =
          mapping at *
        subst hstart
        refine hsame i size mapping p ⟨?_, hbacks⟩
        rw [segmentSpan, hinfo]
        exact hspan

/-- The walk sees nothing but the storage of the segments. -/
theorem iterate_congr {fixups : ChainedFixups} {storage : List Byte}
    {segments : Option (List SegmentMapping)} (hlength : storage'.length = storage.length)
    (hsame : ∀ i size mapping p, Segment fixups storage segments i size mapping →
      mapping.fileOffset ≤ p → p < mapping.fileOffset + min mapping.fileSize size →
      storage'[p]? = storage[p]?) (visit : Visit σ) (s : σ) :
    iterate fixups storage' segments visit s = iterate fixups storage segments visit s := by
  rw [iterate, iterate]
  simp only [walkSegments_congr hlength hsame]

/-! ## All of it together -/

/-- Bytes of a storage that belong to a segment. -/
def InSegments (fixups : ChainedFixups) (storage : List Byte)
    (segments : Option (List SegmentMapping)) (position : Nat) : Prop :=
  ∃ i size mapping, Segment fixups storage segments i size mapping ∧
    mapping.fileOffset ≤ position ∧ position < mapping.fileOffset + min mapping.fileSize size

/-- A walk is harmless: whatever the storage, it ends; it shows the visitor locations inside a
segment and the segment's storage only; and of the storage only the bytes matter that belong to a
segment. -/
def Harmless (fixups : ChainedFixups) (segments : Option (List SegmentMapping)) (visit : Visit σ)
    (s : σ) (walk : List Byte → Option (ChainedStatus × σ)) : Prop :=
  ∀ storage, ∃ status s' binds stopped,
    walk storage = some (status, s') ∧
    Reported visit binds s stopped s' ∧
    (∀ b ∈ binds, Locates fixups storage segments b) ∧
    ∀ storage' : List Byte, storage'.length = storage.length →
      (∀ p, InSegments fixups storage segments p → storage'[p]? = storage[p]?) →
      walk storage' = some (status, s')

theorem iterate_harmless (fixups : ChainedFixups) (segments : Option (List SegmentMapping))
    (visit : Visit σ) (s : σ) :
    Harmless fixups segments visit s fun storage ↦ iterate fixups storage segments visit s := by
  intro storage
  obtain ⟨⟨status, s'⟩, hwalk, binds, stopped, hbinds, hall⟩ :=
    iterate_safe fixups storage segments visit s
  refine ⟨status, s', binds, stopped, hwalk, hbinds, hall, fun storage' hlength hsame ↦ ?_⟩
  rw [← hwalk]
  exact iterate_congr hlength
    (fun i size mapping p hsegment hstart hend ↦ hsame p ⟨i, size, mapping, hsegment, hstart, hend⟩)
    visit s

/-- **Arbitrary bytes are harmless.**  Whatever the bytes of a blob are, parsing it, looking at its
imports and walking its chains, in a loaded image or in a file, comes to an end without a read
outside the buffers, and the name of an import is terminated inside the symbol pool. -/
theorem robustFixups (blob : List Byte) :
    ∃ parsed, parse blob = some parsed ∧ ∀ fixups, parsed = .ok fixups →
      fixups.blob = blob ∧
      (∀ index, ∃ answer, importAt fixups index = some answer ∧
        ∀ import', answer = .ok import' → fixups.NameAt import'.symbolName) ∧
      ∀ {σ : Type} (visit : Visit σ) (s : σ),
        Harmless fixups none visit s (fun storage ↦ iterateBinds fixups storage visit s) ∧
        ∀ segments, Harmless fixups (some segments) visit s
          (fun storage ↦ iterateFileBinds fixups storage segments visit s) := by
  obtain ⟨parsed, hparsed, hok⟩ := parse_safe blob
  refine ⟨parsed, hparsed, fun fixups heq ↦ ?_⟩
  obtain ⟨hblob, hwf⟩ := hok fixups heq
  exact ⟨hblob, fun index ↦ importAt_safe hwf index, fun visit s ↦
    ⟨iterate_harmless fixups none visit s, fun segments ↦
      iterate_harmless fixups (some segments) visit s⟩⟩

end HookKit.Chained
