import HookKit.Resolvers.CachePatches
import HookKit.Resolvers.MachOWalk

/-!
# Reads of the patch tables

* `Table.Inside` — a table lies inside the patch region; `loadV1_safe` and `loadV2_safe` load such
  tables only.
* `emitExportUses_safe`, `parseV1_safe`, `scan_safe` — nothing that follows the tables reads outside
  the region, or outside the cache.
* `openCache_safe` — the checks of the header read the cache only, and the region they declare lies
  inside.
-/

set_option autoImplicit false

namespace HookKit.CachePatches

open LittleEndian Checked MachO

variable {σ : Type}

/-! ## Single reads -/

/-- The bytes of a view are there, and its patch region lies inside. -/
structure Mapped.Fits (m : Mapped) : Prop where
  length : m.bytes.length = m.view.size
  patch : m.view.patch + m.view.patchSize ≤ m.view.size

theorem Mapped.read_safe {m : Mapped} (hm : m.Fits) {count position : Nat}
    (hstart : m.view.patch ≤ position)
    (hend : position + count ≤ m.view.patch + m.view.patchSize) :
    Safe (m.read count position) (· < 256 ^ count) := by
  rw [Mapped.read, if_pos ⟨hstart, hend⟩]
  have hlength := hm.length
  have hpatch := hm.patch
  exact .read (by omega)

/-- Every row of the table lies inside the patch region. -/
def Table.Inside (m : Mapped) (stride : Nat) (t : Table) : Prop :=
  ∀ i < t.count, m.view.patch ≤ t.start + i * stride ∧
    t.start + i * stride + stride ≤ m.view.patch + m.view.patchSize

theorem patchArray_inside {m : Mapped} {address count stride start : Nat}
    (h : patchArray m.view address count stride = some start) :
    (⟨start, count⟩ : Table).Inside m stride := by
  rw [patchArray] at h
  split at h
  · cases h
  split at h
  · cases h
  split at h
  · rename_i hrange
    cases h
    intro i hi
    have hrow : (i + 1) * stride ≤ count * stride := Nat.mul_le_mul_right _ hi
    rw [Nat.succ_mul] at hrow
    dsimp only
    omega
  · cases h

theorem loadTable_safe {m : Mapped} (hm : m.Fits) {offset : Nat}
    (h : offset + 16 ≤ m.view.patchSize) (stride : Nat) :
    Safe (loadTable m offset stride) fun r ↦ ∀ t, r = some t → t.Inside m stride := by
  rw [loadTable]
  refine .bind (Mapped.read_safe hm (by omega) (by omega)) fun count _ ↦
    .bind (Mapped.read_safe hm (by omega) (by omega)) fun address _ ↦ .some fun t ht ↦ ?_
  obtain ⟨start, hstart, rfl⟩ := Option.map_eq_some_iff.mp ht
  exact patchArray_inside hstart

/-- A string is read while the NUL has not been found, and no further than the bound. -/
theorem scanString_safe {read : Nat → Option Nat} {left position : Nat}
    (h : ∀ i < left, Safe (read (position + i)) fun _ ↦ True) :
    Safe (scanString read left position) fun _ ↦ True := by
  induction left generalizing position with
  | zero => exact .some trivial
  | succ left ih =>
    rw [scanString]
    refine .bind (h 0 (Nat.succ_pos _)) fun byte _ ↦ .ite (fun _ ↦ .some trivial) fun _ ↦ ?_
    refine .bind (ih fun i hi ↦ ?_) fun rest _ ↦ ?_
    · have hread := h (i + 1) (Nat.succ_lt_succ hi)
      rwa [← Nat.add_assoc, Nat.add_right_comm] at hread
    · cases rest <;> exact .some trivial

theorem boundedString_safe {read : Nat → Option Nat} {pool size : Nat} (offset : Nat)
    (h : ∀ i < size, Safe (read (pool + i)) fun _ ↦ True) :
    Safe (boundedString read pool size offset) fun _ ↦ True := by
  rw [boundedString]
  refine .ite (fun _ ↦ .some trivial) fun _ ↦ scanString_safe fun i hi ↦ ?_
  rw [Nat.add_assoc]
  exact h (offset + i) (by omega)

theorem Table.string_safe {m : Mapped} (hm : m.Fits) {names : Table} (h : names.Inside m 1)
    (offset : Nat) : Safe (names.string m offset) fun _ ↦ True := by
  refine boundedString_safe offset fun i hi ↦ ?_
  have hrow := h i hi
  exact (Mapped.read_safe hm (by omega) (by omega)).mono fun _ _ ↦ trivial

/-! ## Loops -/

theorem andThen_safe {part : Option (Ended σ)} {next : σ → Option (Ended σ)} {I : σ → Prop}
    (hpart : Safe part fun r ↦ I r.2) (hnext : ∀ s, I s → Safe (next s) fun r ↦ I r.2) :
    Safe (andThen part next) fun r ↦ I r.2 := by
  obtain ⟨⟨status, s⟩, rfl, hs⟩ := hpart
  cases status with
  | ok => exact hnext s hs
  | _ => exact .some hs

/-- **The rule for loops.** -/
theorem forEach_safe {α : Type} {body : α → σ → Option (Ended σ)} {I : σ → Prop} {l : List α}
    (hbody : ∀ a ∈ l, ∀ s, I s → Safe (body a s) fun r ↦ I r.2) {s : σ} (hs : I s) :
    Safe (forEach body l s) fun r ↦ I r.2 := by
  induction l generalizing s with
  | nil => exact .some hs
  | cons a rest ih =>
    rw [forEach]
    exact andThen_safe (hbody a List.mem_cons_self s hs) fun s hs ↦
      ih (fun b hb ↦ hbody b (List.mem_cons_of_mem _ hb)) hs

/-- A loop over rows that exist, from `first` on. -/
theorem forRows_safe {body : Nat → σ → Option (Ended σ)} {first count total : Nat}
    (hrows : first + count ≤ total)
    (hbody : ∀ i < total, ∀ s, Safe (body i s) fun _ ↦ True) (s : σ) :
    Safe (forEach (fun i ↦ body ((first + i) % 2 ^ 32)) (List.range count) s) fun _ ↦ True := by
  refine forEach_safe (I := fun _ ↦ True) (fun i hi s _ ↦ hbody _ ?_ s) trivial
  have hlt := List.mem_range.mp hi
  exact Nat.lt_of_le_of_lt (Nat.mod_le _ _) (by omega)

/-! ## Emitting -/

section

variable {target : PatchImage} {m : Mapped} (hm : m.Fits)
  (hheader : target.headerOffset + target.imageHeaderSize ≤ m.bytes.length)

include hheader in
theorem belongsToImporter_safe (address : Nat) :
    Safe (belongsToImporter target m address) fun _ ↦ True := by
  rw [belongsToImporter]
  refine .bind (.copy hheader) fun header _ ↦ ?_
  refine .bind (iterateSegments_safe (fun _ ↦ True) (fun _ _ _ _ _ ↦ trivial) trivial) fun r _ ↦ ?_
  obtain ⟨status, found⟩ := r
  cases status <;> exact .some trivial

include hheader in
theorem emitLocation_safe (offset bits : Nat) (v4 sharedGot : Bool) (s : Emitted) :
    Safe (emitLocation target m offset bits v4 sharedGot s) fun _ ↦ True := by
  rw [emitLocation]
  refine .ite (fun _ ↦ .some trivial) fun _ ↦ ?_
  refine .bind (P := fun _ ↦ True) ?_ fun _ _ ↦
    .ite (fun _ ↦ .some trivial) fun _ ↦ .some trivial
  exact .ite (fun _ ↦ .some trivial) fun _ ↦ belongsToImporter_safe hheader _

/-! ## Version 1 -/

/-- The tables of version 1 lie inside the patch region. -/
structure TableV1.Inside (m : Mapped) (t : TableV1) : Prop where
  images : t.images.Inside m 8
  exports : t.exports.Inside m 16
  locations : t.locations.Inside m 16
  names : t.names.Inside m 1

include hm in
theorem loadV1_safe : Safe (loadV1 m) fun r ↦ ∀ t, r = some t → t.Inside m := by
  rw [loadV1]
  refine .ite (fun _ ↦ .some nofun) fun hsize ↦ ?_
  refine .bind (loadTable_safe hm (by omega) 8) fun images himages ↦
    .bind (loadTable_safe hm (by omega) 16) fun exports hexports ↦
    .bind (loadTable_safe hm (by omega) 16) fun locations hlocations ↦
    .bind (loadTable_safe hm (by omega) 1) fun names hnames ↦ ?_
  cases images with
  | none => exact .some nofun
  | some images =>
    cases exports with
    | none => exact .some nofun
    | some exports =>
      cases locations with
      | none => exact .some nofun
      | some locations =>
        cases names with
        | none => exact .some nofun
        | some names =>
          refine .some fun t ht ↦ ?_
          cases ht
          exact ⟨himages _ rfl, hexports _ rfl, hlocations _ rfl, hnames _ rfl⟩

include hm hheader in
theorem locationV1_safe {t : TableV1} (ht : t.Inside m) {loc : Nat} (hloc : loc < t.locations.count)
    (s : Emitted) : Safe (locationV1 target m t loc s) fun _ ↦ True := by
  rw [locationV1]
  have hrow := ht.locations loc hloc
  refine .bind (Mapped.read_safe hm (by omega) (by omega)) fun offset _ ↦
    .bind (belongsToImporter_safe hheader _) fun belongs _ ↦ .ite (fun _ ↦ .some trivial) fun _ ↦ ?_
  exact .bind (Mapped.read_safe hm (by omega) (by omega)) fun bits _ ↦
    emitLocation_safe hheader _ _ _ _ s

include hm hheader in
theorem exportV1_safe {t : TableV1} (ht : t.Inside m) (candidates : List CString) {i : Nat}
    (hi : i < t.exports.count) (s : Emitted) :
    Safe (exportV1 target m t candidates i s) fun _ ↦ True := by
  rw [exportV1]
  have hrow := ht.exports i hi
  refine .bind (Mapped.read_safe hm (by omega) (by omega)) fun nameOffset _ ↦
    .bind (Table.string_safe hm ht.names _) fun name _ ↦ ?_
  cases name with
  | none => exact .some trivial
  | some name =>
    refine .ite (fun _ ↦ .some trivial) fun _ ↦ ?_
    refine .bind (Mapped.read_safe hm (by omega) (by omega)) fun locFirst _ ↦
      .bind (Mapped.read_safe hm (by omega) (by omega)) fun locCount _ ↦
      .ite (fun _ ↦ .some trivial) fun hrows ↦ ?_
    exact forRows_safe (Nat.not_lt.mp hrows) (fun loc hloc ↦ locationV1_safe hm hheader ht hloc) s

include hm hheader in
theorem parseV1_safe (candidates : List CString) (s : Emitted) :
    Safe (parseV1 target m candidates s) fun _ ↦ True := by
  rw [parseV1]
  refine .bind (loadV1_safe hm) fun t ht ↦ ?_
  cases t with
  | none => exact .some trivial
  | some t =>
    have ht := ht t rfl
    refine forEach_safe (I := fun _ ↦ True) (fun i hi s _ ↦ ?_) trivial
    rw [imageV1]
    have hrow := ht.images i (List.mem_range.mp hi)
    refine .bind (Mapped.read_safe hm (by omega) (by omega)) fun first _ ↦
      .bind (Mapped.read_safe hm (by omega) (by omega)) fun count _ ↦
      .ite (fun _ ↦ .some trivial) fun hrows ↦ ?_
    exact forRows_safe (Nat.not_lt.mp hrows)
      (fun j hj ↦ exportV1_safe hm hheader ht candidates hj) s

end

/-! ## Versions 2 to 4 -/

section

variable {m : Mapped} (hm : m.Fits)

/-- The tables of versions 2 to 4 lie inside the patch region. -/
structure TableV2.Inside (m : Mapped) (t : TableV2) : Prop where
  images : t.images.Inside m 16
  imageExports : t.imageExports.Inside m 8
  clients : t.clients.Inside m 12
  clientExports : t.clientExports.Inside m 12
  locations : t.locations.Inside m 8
  names : t.names.Inside m 1
  gotClients : t.gotClients.Inside m 8
  gotExports : t.gotExports.Inside m 12
  gotLocations : t.gotLocations.Inside m 16

include hm in
/-- A table of shared pointers, which older versions do not have. -/
theorem loadGotTable_safe {version : Nat}
    (hsize : (if version ≥ 3 then 152 else 104) ≤ m.view.patchSize) (offset : Nat)
    (hoffset : offset ≤ 136) (stride : Nat) :
    Safe (loadGotTable m version offset stride) fun r ↦ ∀ t, r = some t → t.Inside m stride := by
  rw [loadGotTable]
  refine .ite (fun hversion ↦ ?_) fun _ ↦ .some fun t ht ↦ ?_
  · rw [if_pos hversion] at hsize
    exact loadTable_safe hm (by omega) stride
  · cases ht
    exact fun i hi ↦ absurd hi (Nat.not_lt_zero i)

include hm in
theorem loadV2_safe (version : Nat) :
    Safe (loadV2 m version) fun r ↦ ∀ t, r = some t → t.Inside m := by
  rw [loadV2]
  refine .ite (fun _ ↦ .some nofun) fun hsize ↦ ?_
  rw [Nat.not_lt] at hsize
  have hsize' : 104 ≤ m.view.patchSize := by split at hsize <;> omega
  refine .bind (Mapped.read_safe hm (by omega) (by omega)) fun padding _ ↦
    .ite (fun _ ↦ .some nofun) fun _ ↦ ?_
  refine .bind (loadTable_safe hm (by omega) 16) fun images himages ↦
    .bind (loadTable_safe hm (by omega) 8) fun imageExports himageExports ↦
    .bind (loadTable_safe hm (by omega) 12) fun clients hclients ↦
    .bind (loadTable_safe hm (by omega) 12) fun clientExports hclientExports ↦
    .bind (loadTable_safe hm (by omega) 8) fun locations hlocations ↦
    .bind (loadTable_safe hm (by omega) 1) fun names hnames ↦ ?_
  refine .bind (loadGotTable_safe hm hsize 104 (by decide) 8) fun gotClients hgotClients ↦
    .bind (loadGotTable_safe hm hsize 120 (by decide) 12) fun gotExports hgotExports ↦
    .bind (loadGotTable_safe hm hsize 136 (by decide) 16) fun gotLocations hgotLocations ↦ ?_
  split
  · refine .some fun t ht ↦ ?_
    cases ht
    exact ⟨himages _ rfl, himageExports _ rfl, hclients _ rfl, hclientExports _ rfl,
      hlocations _ rfl, hnames _ rfl, hgotClients _ rfl, hgotExports _ rfl, hgotLocations _ rfl⟩
  · exact .some nofun

variable {q : Query} {t : TableV2} (ht : t.Inside m)

include hm ht in
theorem TableV2.image_safe {i : Nat} (hi : i < t.images.count) :
    Safe (t.image m i) fun _ ↦ True := by
  rw [TableV2.image]
  have hrow := ht.images i hi
  iterate 4 refine .bind (Mapped.read_safe hm (by omega) (by omega)) fun _ _ ↦ ?_
  exact .some trivial

include hm ht in
theorem TableV2.nameAndKind_safe {i : Nat} (hi : i < t.imageExports.count) :
    Safe (t.nameAndKind m i) fun _ ↦ True := by
  rw [TableV2.nameAndKind]
  have hrow := ht.imageExports i hi
  exact (Mapped.read_safe hm (by omega) (by omega)).mono fun _ _ ↦ trivial

variable (hheader : q.target.headerOffset + q.target.imageHeaderSize ≤ m.bytes.length)

include hm ht hheader in
theorem emitClientExport_safe (globalExport : Nat) {ce : Nat} (hce : ce < t.clientExports.count)
    (s : Emitted) : Safe (emitClientExport q m t globalExport ce s) fun _ ↦ True := by
  rw [emitClientExport]
  have hrow := ht.clientExports ce hce
  refine .bind (Mapped.read_safe hm (by omega) (by omega)) fun _ _ ↦
    .ite (fun _ ↦ .some trivial) fun _ ↦ ?_
  refine .bind (Mapped.read_safe hm (by omega) (by omega)) fun first _ ↦
    .bind (Mapped.read_safe hm (by omega) (by omega)) fun count _ ↦
    .ite (fun _ ↦ .some trivial) fun hrows ↦ ?_
  refine forRows_safe (Nat.not_lt.mp hrows) (fun loc hloc s ↦ ?_) s
  rw [clientLocation]
  have hrow := ht.locations loc hloc
  refine .bind (Mapped.read_safe hm (by omega) (by omega)) fun offset _ ↦
    .ite (fun _ ↦ .some trivial) fun _ ↦ ?_
  exact .bind (Mapped.read_safe hm (by omega) (by omega)) fun bits _ ↦
    emitLocation_safe hheader _ _ _ _ s

include hm ht hheader in
theorem emitGotExport_safe (globalExport : Nat) {ge : Nat} (hge : ge < t.gotExports.count)
    (s : Emitted) : Safe (emitGotExport q m t globalExport ge s) fun _ ↦ True := by
  rw [emitGotExport]
  have hrow := ht.gotExports ge hge
  refine .bind (Mapped.read_safe hm (by omega) (by omega)) fun _ _ ↦
    .ite (fun _ ↦ .some trivial) fun _ ↦ ?_
  refine .bind (Mapped.read_safe hm (by omega) (by omega)) fun first _ ↦
    .bind (Mapped.read_safe hm (by omega) (by omega)) fun count _ ↦
    .ite (fun _ ↦ .some trivial) fun hrows ↦ .ite (fun _ ↦ .some trivial) fun _ ↦ ?_
  refine forRows_safe (Nat.not_lt.mp hrows) (fun loc hloc s ↦ ?_) s
  rw [gotLocation]
  have hrow := ht.gotLocations loc hloc
  exact .bind (Mapped.read_safe hm (by omega) (by omega)) fun offset _ ↦
    .bind (Mapped.read_safe hm (by omega) (by omega)) fun bits _ ↦
      emitLocation_safe hheader _ _ _ _ s

include hm ht hheader in
theorem emitClient_safe (globalExport : Nat) {c : Nat} (hc : c < t.clients.count) (s : Emitted) :
    Safe (emitClient q m t globalExport c s) fun _ ↦ True := by
  rw [emitClient]
  have hrow := ht.clients c hc
  refine .bind (Mapped.read_safe hm (by omega) (by omega)) fun ceFirst _ ↦
    .bind (Mapped.read_safe hm (by omega) (by omega)) fun ceCount _ ↦
    .ite (fun _ ↦ .some trivial) fun hrows ↦ ?_
  refine .bind (Mapped.read_safe hm (by omega) (by omega)) fun _ _ ↦
    .ite (fun _ ↦ .some trivial) fun _ ↦ ?_
  exact forRows_safe (Nat.not_lt.mp hrows)
    (fun ce hce ↦ emitClientExport_safe hm ht hheader globalExport hce) s

/-- The tables of shared pointers have a row for every image. -/
def TableV2.GotRows (t : TableV2) (version : Nat) : Prop :=
  version ≥ 3 → t.gotClients.count = t.images.count

variable (hgot : t.GotRows q.version)

include hm ht hheader hgot in
/-- Whatever the rows say, the uses of an export are found inside the tables. -/
theorem emitExportUses_safe {defining : Nat} (hdefining : defining < t.images.count)
    (globalExport : Nat) (s : Emitted) :
    Safe (emitExportUses q m t defining globalExport s) fun _ ↦ True := by
  rw [emitExportUses]
  have hrow := ht.images defining hdefining
  refine .bind (Mapped.read_safe hm (by omega) (by omega)) fun clientFirst _ ↦
    .bind (Mapped.read_safe hm (by omega) (by omega)) fun clientCount _ ↦
    .ite (fun _ ↦ .some trivial) fun hrows ↦ ?_
  refine andThen_safe (I := fun _ ↦ True) (forRows_safe (Nat.not_lt.mp hrows)
    (fun c hc ↦ emitClient_safe hm ht hheader globalExport hc) s) fun s _ ↦ ?_
  rw [emitSharedGot]
  refine .ite (fun _ ↦ .some trivial) fun hversion ↦ ?_
  have hgotRow := ht.gotClients defining (by rw [hgot (by omega)]; exact hdefining)
  refine .bind (Mapped.read_safe hm (by omega) (by omega)) fun geFirst _ ↦
    .bind (Mapped.read_safe hm (by omega) (by omega)) fun geCount _ ↦
    .ite (fun _ ↦ .some trivial) fun hgotRows ↦ ?_
  exact forRows_safe (Nat.not_lt.mp hgotRows)
    (fun ge hge ↦ emitGotExport_safe hm ht hheader globalExport hge) s

include hm ht hheader hgot in
theorem useExport_safe {defining : Nat} (hdefining : defining < t.images.count)
    (globalExport nameAndKind : Nat) (s : Emitted) :
    Safe (useExport q m t defining globalExport nameAndKind s) fun _ ↦ True :=
  .ite (fun _ ↦ .some trivial) fun _ ↦
    emitExportUses_safe hm ht hheader hgot hdefining globalExport s

theorem Scan.emit_safe {emission : Emitted → Option (Ended Emitted)}
    (h : ∀ s, Safe (emission s) fun _ ↦ True) (s : Scan) : Safe (s.emit emission) fun _ ↦ True :=
  .bind (h s.emitted) fun _ _ ↦ .some trivial

include hm ht hheader hgot in
/-- The scan reads inside the tables. -/
theorem scan_safe {defining : Nat} (hdefining : defining < t.images.count) (s : Scan) :
    Safe (scanDefinition q m t defining s) fun _ ↦ True := by
  rw [scanDefinition]
  refine .bind (TableV2.image_safe hm ht hdefining) fun row _ ↦
    .ite (fun _ ↦ .some trivial) fun hholds ↦ ?_
  rw [not_not] at hholds
  refine forEach_safe (I := fun _ ↦ True) (fun e he s _ ↦ ?_) trivial
  rw [scanExport]
  have hexport : (row.exportFirst + e) % 2 ^ 32 < t.imageExports.count := by
    have hlt := List.mem_range.mp he
    have hle := hholds.2
    exact Nat.lt_of_le_of_lt (Nat.mod_le _ _) (by omega)
  refine .bind (TableV2.nameAndKind_safe hm ht hexport) fun nameAndKind _ ↦
    .bind (Table.string_safe hm ht.names _) fun name _ ↦ ?_
  cases name with
  | none => exact .some trivial
  | some name =>
    exact .ite (fun _ ↦ .some trivial) fun _ ↦ Scan.emit_safe
      (useExport_safe hm ht hheader hgot hdefining _ _) _

end

/-! ## The header of the cache -/

section

variable {target : PatchImage} {bytes : List Byte} (hbytes : bytes.length = target.cacheSize)

/-- The rows of a range that was accepted lie inside. -/
theorem rangeAt_inside {size offset count stride start i : Nat}
    (h : rangeAt size offset count stride = some start) (hi : i < count) :
    start + i * stride + stride ≤ size := by
  rw [rangeAt] at h
  obtain ⟨hoffset, h⟩ := Option.ite_none_left_eq_some.mp h
  obtain ⟨hfits, h⟩ := Option.ite_none_left_eq_some.mp h
  cases h
  have hrow : (i + 1) * stride ≤ count * stride := Nat.mul_le_mul_right _ hi
  rw [Nat.succ_mul] at hrow
  omega

include hbytes in
theorem imagesRange_safe (hsize : 168 ≤ target.cacheSize) (mappingOffset : Nat) :
    Safe (imagesRange target bytes mappingOffset) fun _ ↦ True := by
  rw [imagesRange]
  refine .bind (.read (by omega)) fun _ _ ↦ .bind (.read (by omega)) fun _ _ ↦
    .ite (fun _ ↦ .ite (fun _ ↦ .some trivial) fun hlarge ↦ ?_) fun _ ↦ .some trivial
  exact .bind (.read (by omega)) fun _ _ ↦ .bind (.read (by omega)) fun _ _ ↦ .some trivial

include hbytes in
theorem findImporter_safe {offset count images : Nat}
    (himages : rangeAt target.cacheSize offset count 32 = some images) (unslidBase : Nat)
    {l : List Nat} (hl : ∀ i ∈ l, i < count) :
    Safe (findImporter target bytes unslidBase images l) fun r ↦ ∀ i, r = .ok i → i < count := by
  induction l with
  | nil => exact .some nofun
  | cons i rest ih =>
    rw [findImporter]
    have hi := hl i List.mem_cons_self
    have hrow := rangeAt_inside himages hi
    refine .bind (.read (by omega)) fun address _ ↦
      .ite (fun _ ↦ ih fun j hj ↦ hl j (List.mem_cons_of_mem _ hj)) fun _ ↦ ?_
    refine .bind (.read (by omega)) fun pathOffset _ ↦
      .bind (boundedString_safe _ fun j hj ↦ (Safe.read (by omega)).mono fun _ _ ↦ trivial)
        fun path _ ↦ ?_
    cases path with
    | none => exact .some nofun
    | some path =>
      refine .ite (fun _ ↦ .some nofun) fun _ ↦ .some fun j hj ↦ ?_
      cases hj
      exact hi

include hbytes in
theorem findText_safe {offset count texts : Nat}
    (htexts : rangeAt target.cacheSize offset count 32 = some texts) (uuid : List Byte)
    (imageUnslid left i : Nat) (hleft : i + left ≤ count) :
    Safe (findText bytes uuid texts imageUnslid left i) fun _ ↦ True := by
  induction left generalizing i with
  | zero => exact .some trivial
  | succ left ih =>
    rw [findText]
    have hrow := @rangeAt_inside _ _ _ _ _ i htexts (by omega)
    refine .bind (.read (by omega)) fun address _ ↦ .ite (fun _ ↦ ?_) fun _ ↦ ih _ (by omega)
    exact .bind (.copy (by omega)) fun _ _ ↦ .some trivial

include hbytes in
theorem checkUuid_safe (hsize : 168 ≤ target.cacheSize) {offset count images importer : Nat}
    (himages : rangeAt target.cacheSize offset count 32 = some images)
    (himporter : importer < count)
    (mappingOffset : Nat) :
    Safe (checkUuid target bytes mappingOffset images importer) fun _ ↦ True := by
  rw [checkUuid]
  cases target.uuid with
  | none => exact .some trivial
  | some uuid =>
    refine .ite (fun _ ↦ .some trivial) fun _ ↦ ?_
    refine .bind (.read (by omega)) fun textOffset _ ↦ .bind (.read (by omega)) fun textCount _ ↦ ?_
    cases htexts : rangeAt target.cacheSize textOffset textCount 32 with
    | none => exact .some trivial
    | some texts =>
      have hrow := rangeAt_inside himages himporter
      exact .bind (.read (by omega)) fun imageUnslid _ ↦
        findText_safe hbytes htexts uuid imageUnslid textCount 0 (by omega)

include hbytes in
theorem openPatch_safe (hsize : 168 ≤ target.cacheSize) (unslidBase mappingOffset : Nat)
    (imagesCount importer : Nat) :
    Safe (openPatch target bytes unslidBase mappingOffset imagesCount importer) fun r ↦
      ∀ opened, r = .ok opened → (Mapped.mk bytes opened.view).Fits ∧
        opened.view.base = target.cacheBase ∧ opened.view.size = target.cacheSize := by
  rw [openPatch]
  refine .bind (.read (by omega)) fun patchAddr _ ↦ .bind (.read (by omega)) fun patchSize _ ↦
    .ite (fun _ ↦ .ite (fun _ ↦ .some nofun) fun hsmall ↦
      .ite (fun hflags ↦ ?_) fun _ ↦ .some nofun)
      fun _ ↦ .ite (fun _ ↦ .some nofun) fun hpatch ↦ .some fun opened heq ↦ ?_
  · exact .bind (.read (by omega)) fun _ _ ↦ .some nofun
  · cases heq
    exact ⟨⟨hbytes, by dsimp only; omega⟩, rfl, rfl⟩

include hbytes in
/-- **The checks of the entry point** read the cache only, and a region that they accept lies inside
the cache. -/
theorem openCache_safe :
    Safe (openCache target bytes) fun r ↦
      ∀ opened, r = .ok opened → (Mapped.mk bytes opened.view).Fits ∧
        opened.view.base = target.cacheBase ∧ opened.view.size = target.cacheSize := by
  rw [openCache]
  refine .ite (fun _ ↦ .some nofun) fun hargument ↦ .ite (fun _ ↦ .some nofun) fun _ ↦ ?_
  have hsize : 168 ≤ target.cacheSize := by omega
  refine .bind (.read (by omega)) fun mappingOffset _ ↦
    .bind (.read (by omega)) fun mappingCount _ ↦
    .ite (fun _ ↦ .some nofun) fun hcount ↦ ?_
  cases hmappings : rangeAt target.cacheSize mappingOffset mappingCount 32 with
  | none => exact .some nofun
  | some mappings =>
    have hrow := @rangeAt_inside _ _ _ _ _ 0 hmappings (by omega)
    refine .bind (.read (by omega)) fun fileOffset _ ↦ .ite (fun _ ↦ .some nofun) fun _ ↦
      .bind (.read (by omega)) fun unslidBase _ ↦ .ite (fun _ ↦ .some nofun) fun _ ↦ ?_
    refine .bind (imagesRange_safe hbytes hsize mappingOffset) fun range _ ↦ ?_
    cases range with
    | error status => exact .some nofun
    | ok range =>
      obtain ⟨imagesOffset, imagesCount⟩ := range
      dsimp only
      cases himages : rangeAt target.cacheSize imagesOffset imagesCount 32 with
      | none => exact .some nofun
      | some images =>
        refine .bind (findImporter_safe hbytes himages unslidBase fun i ↦ List.mem_range.mp)
          fun importer himporter ↦ ?_
        cases importer with
        | error status => exact .some nofun
        | ok importer =>
          refine .bind (checkUuid_safe hbytes hsize himages (himporter _ rfl) mappingOffset)
            fun _ _ ↦ .ite (fun _ ↦ .some nofun) fun _ ↦ ?_
          exact openPatch_safe hbytes hsize _ _ _ _

end

end HookKit.CachePatches
