import HookKit.Resolvers.CachePatchReads
import Mathlib.Data.List.Forall2

/-!
# What a scan finds

The exports of the tables, in the order in which a scan comes to them, and what a scan makes of
them.

* `Recorded` — every row is in order and every name can be read; these are the exports.
* `forEach_scan` — over such tables a scan does the same for every export that matches, one after
  the other; and a scan that goes through has been over such tables.
* `Recorded.ordered` — the exports stand in the order of the images and, within an image, of its
  rows.
-/

set_option autoImplicit false

namespace HookKit.CachePatches

open LittleEndian Checked MachO

variable {σ : Type}

/-! ## Loops -/

theorem andThen_ok {part : Option (Ended σ)} {next : σ → Option (Ended σ)} {s : σ}
    (h : andThen part next = some (.ok, s)) : ∃ s', part = some (.ok, s') ∧
    next s' = some (.ok, s) := by
  rcases part with _ | ⟨status, s'⟩
  · cases h
  · cases status with
    | ok => exact ⟨s', rfl, h⟩
    | _ => cases h

theorem andThen_assoc (part : Option (Ended σ)) (next next' : σ → Option (Ended σ)) :
    andThen (andThen part next) next' = andThen part fun s ↦ andThen (next s) next' := by
  rcases part with _ | ⟨status, s⟩
  · rfl
  · cases status <;> rfl

theorem andThen_pure (part : Option (Ended σ)) : andThen part (fun s ↦ some (.ok, s)) = part := by
  rcases part with _ | ⟨status, s⟩
  · rfl
  · cases status <;> rfl

theorem forEach_append {α : Type} (body : α → σ → Option (Ended σ)) (l l' : List α) (s : σ) :
    forEach body (l ++ l') s = andThen (forEach body l s) (forEach body l') := by
  induction l generalizing s with
  | nil => rfl
  | cons a rest ih =>
    rw [List.cons_append, forEach, forEach, andThen_assoc]
    congr 1
    funext s'
    exact ih s'

/-- A loop that goes through has gone through every pass. -/
theorem forEach_ok {α : Type} {body : α → σ → Option (Ended σ)} {l : List α} {s s' : σ}
    (h : forEach body l s = some (.ok, s')) {a : α} (ha : a ∈ l) :
    ∃ s₁ s₂, body a s₁ = some (.ok, s₂) := by
  induction l generalizing s with
  | nil => exact absurd ha List.not_mem_nil
  | cons b rest ih =>
    obtain ⟨s₁, hbody, hrest⟩ := andThen_ok h
    rcases List.mem_cons.mp ha with rfl | ha
    · exact ⟨s, s₁, hbody⟩
    · exact ih hrest ha

/-! ## Collecting -/

section

variable {α β : Type} {f : α → Option (Option β)}

theorem collect_iff {l : List α} {bs : List β} :
    collect f l = some (some bs) ↔ List.Forall₂ (fun a b ↦ f a = some (some b)) l bs := by
  induction l generalizing bs with
  | nil =>
    rw [List.forall₂_nil_left_iff, collect, Option.some_inj, Option.some_inj]
    exact eq_comm
  | cons a rest ih =>
    constructor
    · intro h
      rw [collect] at h
      obtain ⟨b?, hb, h⟩ := Option.bind_eq_some_iff.mp h
      cases b? with
      | none => cases h
      | some b =>
        obtain ⟨bs?, hbs, h⟩ := Option.bind_eq_some_iff.mp h
        cases bs? with
        | none => cases h
        | some bs' =>
          cases h
          exact .cons hb (ih.mp hbs)
    · intro h
      cases h with
      | cons hb hbs =>
        rw [collect, hb]
        simp only [Option.bind_eq_bind, Option.bind_some]
        rw [ih.mpr hbs]
        rfl

/-- Collecting goes through when every element does. -/
theorem collect_total {l : List α} (h : ∀ a ∈ l, ∃ b, f a = some (some b)) :
    ∃ bs, collect f l = some (some bs) := by
  induction l with
  | nil => exact ⟨[], rfl⟩
  | cons a rest ih =>
    obtain ⟨b, hb⟩ := h a List.mem_cons_self
    obtain ⟨bs, hbs⟩ := ih fun c hc ↦ h c (List.mem_cons_of_mem _ hc)
    exact ⟨b :: bs, collect_iff.mpr (.cons hb (collect_iff.mp hbs))⟩

theorem collect_mem {l : List α} {bs : List β} (h : collect f l = some (some bs)) {b : β}
    (hb : b ∈ bs) : ∃ a ∈ l, f a = some (some b) := by
  rw [collect_iff] at h
  induction h with
  | nil => exact absurd hb List.not_mem_nil
  | cons hab _ ih =>
    rcases List.mem_cons.mp hb with rfl | hb
    · exact ⟨_, List.mem_cons_self, hab⟩
    · obtain ⟨a, ha, hab⟩ := ih hb
      exact ⟨a, List.mem_cons_of_mem _ ha, hab⟩

/-- What is collected along an ordered list is ordered when any two elements give ordered
results. -/
theorem collect_pairwise {R : α → α → Prop} {S : β → β → Prop} {l : List α} {bs : List β}
    (h : collect f l = some (some bs)) (hl : l.Pairwise R)
    (hRS : ∀ a a' b b', R a a' → f a = some (some b) → f a' = some (some b') → S b b') :
    bs.Pairwise S := by
  have hforall := collect_iff.mp h
  clear h
  induction hforall with
  | nil => exact .nil
  | cons hab hrest ih =>
    rw [List.pairwise_cons] at hl
    refine .cons (fun b' hb' ↦ ?_) (ih hl.2)
    obtain ⟨a', ha', hab'⟩ := collect_mem (collect_iff.mpr hrest) hb'
    exact hRS _ _ _ _ (hl.1 a' ha') hab hab'

end

/-! ## The exports of the tables -/

/-- Every row of the table of images is in order, every name can be read, and these are the exports,
in the order in which a scan comes to them. -/
structure Recorded (m : Mapped) (t : TableV2) (entries : List (CString × IndexEntry)) : Prop where
  rows : ∀ i < t.images.count, ∃ row, t.image m i = some row ∧ t.Holds row
  collected : ∃ perImage, collect (indexDefinition m t) (List.range t.images.count) =
    some (some perImage) ∧ perImage.flatten = entries

/-- The export in one place of an image. -/
structure ExportAt (m : Mapped) (t : TableV2) (defining : Nat) (row : ImageRow) (e : Nat)
    (entry : CString × IndexEntry) (nameAndKind : Nat) : Prop where
  read : t.nameAndKind m ((row.exportFirst + e) % 2 ^ 32) = some nameAndKind
  name : t.names.string m (nameAndKind &&& 0x0fffffff) = some (some entry.1)
  entry : entry.2 = ⟨t.names.start + (nameAndKind &&& 0x0fffffff), defining,
    (row.exportFirst + e) % 2 ^ 32⟩

theorem indexExport_iff {m : Mapped} {t : TableV2} {defining : Nat} {row : ImageRow} {e : Nat}
    {entry : CString × IndexEntry} :
    indexExport m t defining row e = some (some entry) ↔
      ∃ nameAndKind, ExportAt m t defining row e entry nameAndKind := by
  rw [indexExport]
  constructor
  · intro h
    obtain ⟨nameAndKind, hread, h⟩ := Option.bind_eq_some_iff.mp h
    obtain ⟨name, hname, h⟩ := Option.bind_eq_some_iff.mp h
    cases name with
    | none => cases h
    | some name =>
      cases h
      exact ⟨nameAndKind, hread, hname, rfl⟩
  · rintro ⟨nameAndKind, hread, hname, hentry⟩
    rw [hread]
    simp only [Option.bind_eq_bind, Option.bind_some]
    rw [hname]
    show some (some (entry.1, _)) = _
    rw [← hentry]

/-! ## The scan -/

/-- What a scan does with an export that matches. -/
def scanEntry (q : Query) (m : Mapped) (t : TableV2) (entry : IndexEntry) (s : Scan) :
    Option (Ended Scan) := do
  let nameAndKind ← t.nameAndKind m entry.exportIndex
  (s.append entry.definingImage entry.exportIndex).emit
    (useExport q m t entry.definingImage entry.exportIndex nameAndKind)

theorem matching_append (candidates : List CString)
    (entries entries' : List (CString × IndexEntry)) :
    matching candidates (entries ++ entries') =
      matching candidates entries ++ matching candidates entries' := by
  rw [matching, List.filter_append, List.map_append]
  rfl

theorem matching_cons (candidates : List CString) (entry : CString × IndexEntry)
    (entries : List (CString × IndexEntry)) :
    matching candidates (entry :: entries) =
      if entry.1 ∈ candidates then entry.2 :: matching candidates entries
      else matching candidates entries := by
  rw [matching, List.filter_cons]
  simp only [decide_eq_true_eq]
  split <;> rfl

section

variable {q : Query} {m : Mapped} {t : TableV2}

theorem scanExport_record {defining : Nat} {row : ImageRow} {e : Nat} {entry : CString × IndexEntry}
    (h : indexExport m t defining row e = some (some entry)) (s : Scan) :
    scanExport q m t defining row e s =
    forEach (scanEntry q m t) (matching q.candidates [entry]) s := by
  obtain ⟨nameAndKind, hread, hname, hentry⟩ := indexExport_iff.mp h
  rw [scanExport, hread]
  simp only [Option.bind_eq_bind, Option.bind_some]
  rw [hname, matching_cons]
  simp only [Option.bind_some]
  by_cases hmatch : entry.1 ∈ q.candidates
  · rw [if_neg (not_not.mpr hmatch), if_pos hmatch, forEach, scanEntry, hentry]
    dsimp only
    rw [hread]
    exact (andThen_pure _).symm
  · rw [if_pos hmatch, if_neg hmatch]
    rfl

/-- Over exports that can be read, a scan does the same for each that matches. -/
theorem forEach_scanExport {defining : Nat} {row : ImageRow} {l : List Nat}
    {entries : List (CString × IndexEntry)}
    (h : collect (indexExport m t defining row) l = some (some entries)) (s : Scan) :
    forEach (scanExport q m t defining row) l s =
      forEach (scanEntry q m t) (matching q.candidates entries) s := by
  have hforall := collect_iff.mp h
  clear h
  induction hforall generalizing s with
  | nil => rfl
  | cons hentry _ ih =>
    rename_i e entry l entries _
    have hsplit : matching q.candidates (entry :: entries) =
        matching q.candidates [entry] ++ matching q.candidates entries :=
          matching_append _ [entry] _
    rw [forEach, scanExport_record hentry, hsplit, forEach_append]
    congr 1
    funext s
    exact ih s

theorem scanDefinition_record {i : Nat} {row : ImageRow} {entries : List (CString × IndexEntry)}
    (hrow : t.image m i = some row) (hholds : t.Holds row)
    (h : indexDefinition m t i = some (some entries)) (s : Scan) :
    scanDefinition q m t i s = forEach (scanEntry q m t) (matching q.candidates entries) s := by
  rw [indexDefinition, hrow] at h
  rw [scanDefinition, hrow]
  simp only [Option.bind_eq_bind, Option.bind_some] at h ⊢
  rw [if_neg (not_not.mpr hholds)]
  exact forEach_scanExport h s

/-- **A scan of tables that are in order** does the same for every export that matches. -/
theorem forEach_scan {entries : List (CString × IndexEntry)} (h : Recorded m t entries) (s : Scan) :
    forEach (scanDefinition q m t) (List.range t.images.count) s =
      forEach (scanEntry q m t) (matching q.candidates entries) s := by
  obtain ⟨perImage, hcollect, rfl⟩ := h.collected
  have hrows := h.rows
  have hmem : ∀ i ∈ List.range t.images.count, i < t.images.count := fun i ↦ List.mem_range.mp
  have hforall := collect_iff.mp hcollect
  clear hcollect h
  generalize List.range t.images.count = l at hmem hforall
  induction hforall generalizing s with
  | nil => rfl
  | cons hentries _ ih =>
    rename_i i entries l perImage _
    obtain ⟨row, hrow, hholds⟩ := hrows i (hmem i List.mem_cons_self)
    rw [forEach, scanDefinition_record hrow hholds hentries, List.flatten_cons, matching_append,
      forEach_append]
    congr 1
    funext s
    exact ih s fun j hj ↦ hmem j (List.mem_cons_of_mem _ hj)

/-- A scan that goes through has been over tables that are in order. -/
theorem scan_recorded {s s' : Scan}
    (h : forEach (scanDefinition q m t) (List.range t.images.count) s = some (.ok, s')) :
    ∃ entries, Recorded m t entries := by
  have hdefinition : ∀ i < t.images.count, ∃ row, t.image m i = some row ∧ t.Holds row ∧
      ∃ entries, indexDefinition m t i = some (some entries) := by
    intro i hi
    obtain ⟨s₁, s₂, hbody⟩ := forEach_ok h (List.mem_range.mpr hi)
    rw [scanDefinition] at hbody
    obtain ⟨row, hrow, hbody⟩ := Option.bind_eq_some_iff.mp hbody
    split at hbody
    · cases hbody
    · rename_i hholds
      refine ⟨row, hrow, not_not.mp hholds, ?_⟩
      rw [indexDefinition, hrow]
      simp only [Option.bind_eq_bind, Option.bind_some]
      refine collect_total fun e he ↦ ?_
      obtain ⟨s₃, s₄, hexport⟩ := forEach_ok hbody he
      rw [scanExport] at hexport
      obtain ⟨nameAndKind, hread, hexport⟩ := Option.bind_eq_some_iff.mp hexport
      obtain ⟨name, hname, hexport⟩ := Option.bind_eq_some_iff.mp hexport
      cases name with
      | none => cases hexport
      | some name => exact ⟨(name, _), indexExport_iff.mpr ⟨nameAndKind, hread, hname, rfl⟩⟩
  obtain ⟨perImage, hperImage⟩ := collect_total fun i hi ↦
    (hdefinition i (List.mem_range.mp hi)).elim fun row hrow ↦ hrow.2.2
  exact ⟨perImage.flatten, fun i hi ↦ (hdefinition i hi).elim fun row hrow ↦
    ⟨row, hrow.1, hrow.2.1⟩,
    perImage, hperImage, rfl⟩

end

/-! ## The order of the exports -/

theorem Mapped.read_lt {m : Mapped} {count position v : Nat} (h : m.read count position = some v)
    (hcount : 0 < count) : v < 256 ^ count := by
  rw [Mapped.read] at h
  split at h
  · obtain ⟨v', hv', hlt⟩ := readLE_some (readLE_inside h hcount)
    rw [h] at hv'
    cases hv'
    exact hlt
  · cases h

/-- The numbers of a row have 32 bits. -/
theorem TableV2.image_lt {m : Mapped} {t : TableV2} {i : Nat} {row : ImageRow}
    (h : t.image m i = some row) : row.exportFirst < 2 ^ 32 ∧ row.exportCount < 2 ^ 32 := by
  rw [TableV2.image] at h
  obtain ⟨clientFirst, -, h⟩ := Option.bind_eq_some_iff.mp h
  obtain ⟨clientCount, -, h⟩ := Option.bind_eq_some_iff.mp h
  obtain ⟨exportFirst, hfirst, h⟩ := Option.bind_eq_some_iff.mp h
  obtain ⟨exportCount, hcount, h⟩ := Option.bind_eq_some_iff.mp h
  cases h
  exact ⟨Mapped.read_lt hfirst (by decide), Mapped.read_lt hcount (by decide)⟩

/-- The place of an export within its image. -/
def TableV2.offset (t : TableV2) (m : Mapped) (entry : IndexEntry) : Nat :=
  match t.image m entry.definingImage with
  | none => 0
  | some row => (entry.exportIndex + 2 ^ 32 - row.exportFirst) % 2 ^ 32

/-- An export comes before another one: in an earlier image, or at an earlier place of the same. -/
def Before (m : Mapped) (t : TableV2) (a b : IndexEntry) : Prop :=
  a.definingImage < b.definingImage ∨
    a.definingImage = b.definingImage ∧ t.offset m a < t.offset m b

/-- What is known of an export. -/
structure EntryOf (m : Mapped) (t : TableV2) (entry : IndexEntry) (row : ImageRow) : Prop where
  image : entry.definingImage < t.images.count
  rowAt : t.image m entry.definingImage = some row
  holds : t.Holds row
  offset : t.offset m entry < row.exportCount
  exportIndex : (row.exportFirst + t.offset m entry) % 2 ^ 32 = entry.exportIndex

section

variable {m : Mapped} {t : TableV2} {entries : List (CString × IndexEntry)}

theorem ExportAt.offset {defining e nameAndKind : Nat} {row : ImageRow}
    {entry : CString × IndexEntry}
    (h : ExportAt m t defining row e entry nameAndKind) (hrow : t.image m defining = some row)
    (he : e < row.exportCount) : t.offset m entry.2 = e := by
  obtain ⟨hfirst, hcount⟩ := TableV2.image_lt hrow
  rw [TableV2.offset, h.entry]
  dsimp only
  rw [hrow]
  dsimp only
  omega

theorem Recorded.entryAt (h : Recorded m t entries) {entry : CString × IndexEntry}
    (hentry : entry ∈ entries) :
    ∃ row nameAndKind, EntryOf m t entry.2 row ∧
      ExportAt m t entry.2.definingImage row (t.offset m entry.2) entry nameAndKind := by
  obtain ⟨perImage, hcollect, rfl⟩ := h.collected
  obtain ⟨es, hes, hentry⟩ := List.mem_flatten.mp hentry
  obtain ⟨i, hi, hdefinition⟩ := collect_mem hcollect hes
  obtain ⟨row, hrow, hholds⟩ := h.rows i (List.mem_range.mp hi)
  rw [indexDefinition, hrow] at hdefinition
  obtain ⟨e, he, hexport⟩ := collect_mem hdefinition hentry
  obtain ⟨nameAndKind, hat⟩ := indexExport_iff.mp hexport
  have hoffset := hat.offset hrow (List.mem_range.mp he)
  have hdefining : entry.2.definingImage = i := by rw [hat.entry]
  have hindex : entry.2.exportIndex = (row.exportFirst + e) % 2 ^ 32 := by rw [hat.entry]
  refine ⟨row, nameAndKind, ⟨?_, ?_, hholds, ?_, ?_⟩, ?_⟩
  · rw [hdefining]
    exact List.mem_range.mp hi
  · rwa [hdefining]
  · rw [hoffset]
    exact List.mem_range.mp he
  · rw [hoffset, hindex]
  · rwa [hdefining, hoffset]

/-- **The exports are ordered** by their images, and within an image by their places. -/
theorem Recorded.ordered (h : Recorded m t entries) :
    entries.Pairwise fun a b ↦ Before m t a.2 b.2 := by
  obtain ⟨perImage, hcollect, rfl⟩ := h.collected
  have hrow : ∀ i es, indexDefinition m t i = some (some es) →
      ∃ row, t.image m i = some row ∧
        collect (indexExport m t i row) (List.range row.exportCount) = some (some es) := by
    intro i es hes
    rw [indexDefinition] at hes
    obtain ⟨row, hrow, hes⟩ := Option.bind_eq_some_iff.mp hes
    exact ⟨row, hrow, hes⟩
  have hat : ∀ i es, indexDefinition m t i = some (some es) → ∀ entry ∈ es,
      entry.2.definingImage = i := by
    intro i es hes entry hentry
    obtain ⟨row, -, hes⟩ := hrow i es hes
    obtain ⟨e, -, hexport⟩ := collect_mem hes hentry
    obtain ⟨nameAndKind, hexport⟩ := indexExport_iff.mp hexport
    rw [hexport.entry]
  rw [List.pairwise_flatten]
  constructor
  · intro es hes
    obtain ⟨i, -, hdefinition⟩ := collect_mem hcollect hes
    obtain ⟨row, himage, hexports⟩ := hrow i es hdefinition
    have hpairs : (List.range row.exportCount).Pairwise fun a b ↦ a < b ∧ b < row.exportCount :=
      List.pairwise_lt_range.imp_of_mem fun _ hb hlt ↦ ⟨hlt, List.mem_range.mp hb⟩
    refine collect_pairwise hexports hpairs fun e e' a b he ha hb ↦ ?_
    obtain ⟨nameAndKind, ha⟩ := indexExport_iff.mp ha
    obtain ⟨nameAndKind', hb⟩ := indexExport_iff.mp hb
    refine .inr ⟨by rw [ha.entry, hb.entry], ?_⟩
    rw [ha.offset himage (by omega), hb.offset himage he.2]
    exact he.1
  · refine collect_pairwise hcollect List.pairwise_lt_range
      fun i i' es es' hlt hes hes' a ha b hb ↦ ?_
    rw [Before, hat i es hes a ha, hat i' es' hes' b hb]
    exact .inl hlt

theorem mem_matching {candidates : List CString} {entry : IndexEntry}
    (h : entry ∈ matching candidates entries) : ∃ name ∈ candidates, (name, entry) ∈ entries := by
  obtain ⟨⟨name, entry⟩, hmem, rfl⟩ := List.mem_map.mp h
  rw [List.mem_filter] at hmem
  exact ⟨name, of_decide_eq_true hmem.2, hmem.1⟩

theorem Recorded.matching_ordered (h : Recorded m t entries) (candidates : List CString) :
    (matching candidates entries).Pairwise (Before m t) := by
  rw [matching, List.pairwise_map]
  exact h.ordered.filter _

theorem Recorded.matching_entry (h : Recorded m t entries) {candidates : List CString}
    {entry : IndexEntry} (hentry : entry ∈ matching candidates entries) :
    ∃ row nameAndKind, EntryOf m t entry row ∧ t.nameAndKind m entry.exportIndex =
    some nameAndKind := by
  obtain ⟨name, -, hmem⟩ := mem_matching hentry
  obtain ⟨row, nameAndKind, hof, hat⟩ := h.entryAt hmem
  refine ⟨row, nameAndKind, hof, ?_⟩
  rw [← hof.exportIndex]
  exact hat.read

end

end HookKit.CachePatches
