import HookKit.Resolvers.CachePatchRecords

/-!
# Scanning, replaying, and the index

Over tables that are in order, a scan, the replay of a completed lookup and the replay of the index
of the process all do the same: they use every export that matches, in the order of the scan.

* `useAll` — using exports, one after the other.
* `scan_answer`, `replayDefinitions_eq`, `mergedRuns_eq` — that this is what each of the three does.
-/

set_option autoImplicit false

namespace HookKit.CachePatches

open LittleEndian Checked MachO

/-! ## What a scan answers -/

/-- The status and what has been emitted, without the lookup. -/
def answerOf (ended : Option (Ended Scan)) : Option (Ended Emitted) :=
  ended.map fun (status, s) ↦ (status, s.emitted)

theorem answerOf_emit (emission : Emitted → Option (Ended Emitted)) (s : Scan) :
    answerOf (s.emit emission) = emission s.emitted := by
  rw [Scan.emit]
  rcases emission s.emitted with _ | ⟨status, emitted⟩ <;> rfl

@[simp] theorem Scan.append_emitted (s : Scan) (defining exportIndex : Nat) :
    (s.append defining exportIndex).emitted = s.emitted := by
  rw [Scan.append]
  split <;> rfl

/-- A loop answers what its passes answer. -/
theorem answerOf_forEach {α : Type} {body : α → Scan → Option (Ended Scan)}
    {body' : α → Emitted → Option (Ended Emitted)}
    (h : ∀ a s, answerOf (body a s) = body' a s.emitted) (l : List α) (s : Scan) :
    answerOf (forEach body l s) = forEach body' l s.emitted := by
  induction l generalizing s with
  | nil => rfl
  | cons a rest ih =>
    rw [forEach, forEach, ← h]
    rcases body a s with _ | ⟨status, s'⟩
    · rfl
    · cases status with
      | ok => exact ih s'
      | _ => rfl

/-- A loop whose passes answer the same for every lookup does so, too. -/
theorem forEach_blind {α : Type} {body : α → Scan → Option (Ended Scan)}
    (h : ∀ a s, answerOf (body a s) = answerOf (body a ⟨s.emitted, none, []⟩))
    (l : List α) (s : Scan) :
    answerOf (forEach body l s) = answerOf (forEach body l ⟨s.emitted, none, []⟩) := by
  have hloop := @answerOf_forEach α body (fun a emitted ↦ answerOf (body a ⟨emitted, none, []⟩)) h l
  rw [hloop s, hloop]

section

variable {q : Query} {m : Mapped} {t : TableV2}

/-- Use an export that matches. -/
def useEntry (q : Query) (m : Mapped) (t : TableV2) (entry : IndexEntry) (s : Emitted) :
    Option (Ended Emitted) := do
  let nameAndKind ← t.nameAndKind m entry.exportIndex
  useExport q m t entry.definingImage entry.exportIndex nameAndKind s

/-- Use exports, one after the other. -/
def useAll (q : Query) (m : Mapped) (t : TableV2) : List IndexEntry → Emitted →
    Option (Ended Emitted) :=
  forEach (useEntry q m t)

theorem answerOf_scanEntry (entry : IndexEntry) (s : Scan) :
    answerOf (scanEntry q m t entry s) = useEntry q m t entry s.emitted := by
  rw [scanEntry, useEntry]
  cases t.nameAndKind m entry.exportIndex with
  | none => rfl
  | some nameAndKind =>
    simp only [Option.bind_eq_bind, Option.bind_some]
    rw [answerOf_emit, Scan.append_emitted]

theorem answerOf_replayEntry (entry : IndexEntry) (s : Scan) :
    answerOf (replayEntry q m t entry s) = useEntry q m t entry s.emitted := by
  rw [replayEntry, useEntry]
  cases t.nameAndKind m entry.exportIndex with
  | none => rfl
  | some nameAndKind =>
    simp only [Option.bind_eq_bind, Option.bind_some]
    rw [useExport]
    split
    · rfl
    · rw [answerOf_emit, Scan.append_emitted]

/-- Over tables that are in order, a scan uses the exports that match. -/
theorem scan_answer {entries : List (CString × IndexEntry)} (h : Recorded m t entries) (s : Scan) :
    answerOf (forEach (scanDefinition q m t) (List.range t.images.count) s) =
      useAll q m t (matching q.candidates entries) s.emitted := by
  rw [forEach_scan h]
  exact answerOf_forEach answerOf_scanEntry _ s

/-- What a scan answers does not depend on the lookup that it fills. -/
theorem scan_blind (s s' : Scan) (h : s.emitted = s'.emitted) :
    answerOf (forEach (scanDefinition q m t) (List.range t.images.count) s) =
      answerOf (forEach (scanDefinition q m t) (List.range t.images.count) s') := by
  have hexport : ∀ (defining : Nat) (row : ImageRow) (e : Nat) (s : Scan),
      answerOf (scanExport q m t defining row e s) =
        answerOf (scanExport q m t defining row e ⟨s.emitted, none, []⟩) := by
    intro defining row e s
    rw [scanExport, scanExport]
    cases t.nameAndKind m ((row.exportFirst + e) % 2 ^ 32) with
    | none => rfl
    | some nameAndKind =>
      simp only [Option.bind_eq_bind, Option.bind_some]
      rcases t.names.string m (nameAndKind &&& 0x0fffffff) with _ | _ | name
      · rfl
      · rfl
      · simp only [Option.bind_some]
        split
        · rfl
        · rw [answerOf_emit, answerOf_emit, Scan.append_emitted, Scan.append_emitted]
  have hdefinition : ∀ (i : Nat) (s : Scan), answerOf (scanDefinition q m t i s) =
      answerOf (scanDefinition q m t i ⟨s.emitted, none, []⟩) := by
    intro i s
    rw [scanDefinition, scanDefinition]
    cases t.image m i with
    | none => rfl
    | some row =>
      simp only [Option.bind_eq_bind, Option.bind_some]
      split
      · rfl
      · exact forEach_blind (hexport i row) _ s
  rw [forEach_blind hdefinition _ s, forEach_blind hdefinition _ s', h]

end

/-! ## Filling a lookup -/

/-- A lookup to which matches have been added, unless the memory did not suffice. -/
structure Lookup.Extends (l l' : Lookup) (matched : List ExportMatch) : Prop where
  same : l'.symbol = l.symbol ∧ l'.convention = l.convention ∧ l'.view = l.view ∧
    l'.version = l.version ∧ l'.complete = l.complete
  matched : l'.allocationFailed = true ∨ l'.matched = l.matched ++ matched
  failed : l.allocationFailed = true → l'.allocationFailed = true

theorem Lookup.Extends.refl (l : Lookup) : l.Extends l [] :=
  ⟨⟨rfl, rfl, rfl, rfl, rfl⟩, .inr (List.append_nil _).symm, id⟩

theorem Lookup.Extends.trans {l l' l'' : Lookup} {matched matched' : List ExportMatch}
    (h : l.Extends l' matched) (h' : l'.Extends l'' matched') :
    l.Extends l'' (matched ++ matched') := by
  refine ⟨⟨h'.same.1.trans h.same.1, h'.same.2.1.trans h.same.2.1, h'.same.2.2.1.trans h.same.2.2.1,
    h'.same.2.2.2.1.trans h.same.2.2.2.1, h'.same.2.2.2.2.trans h.same.2.2.2.2⟩, ?_, fun hfailed ↦
      h'.failed (h.failed hfailed)⟩
  rcases h'.matched with hfailed | hmatched'
  · exact .inl hfailed
  · rcases h.matched with hfailed | hmatched
    · exact .inl (h'.failed hfailed)
    · exact .inr (by rw [hmatched', hmatched, List.append_assoc])

theorem Lookup.append_extends (l : Lookup) (defining exportIndex : Nat) (heap : List Bool) :
    l.Extends (l.append defining exportIndex heap).1 [⟨defining, exportIndex⟩] := by
  rw [Lookup.append]
  split
  · exact ⟨⟨rfl, rfl, rfl, rfl, rfl⟩, .inl ‹_›, id⟩
  · rename_i hfailed
    dsimp only
    generalize (if l.capacity ≠ 0 then l.capacity * 2 % 2 ^ 64 else 4) = capacity
    split
    · exact ⟨⟨rfl, rfl, rfl, rfl, rfl⟩, .inr rfl, id⟩
    · split
      · rcases allocate heap with ⟨_ | _, heap'⟩
        · exact ⟨⟨rfl, rfl, rfl, rfl, rfl⟩, .inl rfl, fun _ ↦ rfl⟩
        · exact ⟨⟨rfl, rfl, rfl, rfl, rfl⟩, .inr rfl, id⟩
      · exact ⟨⟨rfl, rfl, rfl, rfl, rfl⟩, .inl rfl, fun _ ↦ rfl⟩

/-- The lookup of a scan, to which matches have been added. -/
inductive Fills : Option Lookup → Option Lookup → List ExportMatch → Prop where
  | none (matched : List ExportMatch) : Fills none none matched
  | some {l l' : Lookup} {matched : List ExportMatch} (h : l.Extends l' matched) :
      Fills (some l) (some l') matched

theorem Fills.refl (lookup : Option Lookup) : Fills lookup lookup [] := by
  cases lookup with
  | none => exact .none []
  | some l => exact .some (.refl l)

theorem Fills.trans {lookup lookup' lookup'' : Option Lookup} {matched matched' : List ExportMatch}
    (h : Fills lookup lookup' matched) (h' : Fills lookup' lookup'' matched') :
    Fills lookup lookup'' (matched ++ matched') := by
  cases h with
  | none => cases h' with | none => exact .none _
  | some h => cases h' with | some h' => exact .some (h.trans h')

/-- A match, as a lookup keeps it. -/
def IndexEntry.toMatch (entry : IndexEntry) : ExportMatch :=
    ⟨entry.definingImage, entry.exportIndex⟩

theorem Scan.append_fills (s : Scan) (entry : IndexEntry) :
    Fills s.lookup (s.append entry.definingImage entry.exportIndex).lookup [entry.toMatch] := by
  rw [Scan.append]
  split
  · rename_i hlookup
    rw [hlookup]
    exact .none _
  · rename_i l hlookup
    rw [hlookup]
    exact .some (l.append_extends _ _ _)

theorem Scan.emit_lookup {emission : Emitted → Option (Ended Emitted)} {s s' : Scan}
    {status : CachePatchStatus} (h : s.emit emission = some (status, s')) :
    s'.lookup = s.lookup := by
  rw [Scan.emit] at h
  obtain ⟨⟨status', emitted⟩, -, h⟩ := Option.bind_eq_some_iff.mp h
  cases h
  rfl

/-- A loop that goes through adds a match for every pass. -/
theorem forEach_fills {body : IndexEntry → Scan → Option (Ended Scan)}
    (hbody : ∀ entry s s', body entry s = some (.ok, s') →
      Fills s.lookup s'.lookup [entry.toMatch]) {l : List IndexEntry} {s s' : Scan}
    (h : forEach body l s = some (.ok, s')) :
    Fills s.lookup s'.lookup (l.map IndexEntry.toMatch) := by
  induction l generalizing s with
  | nil =>
    cases h
    exact .refl _
  | cons entry rest ih =>
    obtain ⟨s₁, hentry, hrest⟩ := andThen_ok h
    exact (hbody entry s s₁ hentry).trans (ih hrest)

section

variable {q : Query} {m : Mapped} {t : TableV2} {entry : IndexEntry} {s s' : Scan}

theorem scanEntry_fills (h : scanEntry q m t entry s = some (.ok, s')) :
    Fills s.lookup s'.lookup [entry.toMatch] := by
  rw [scanEntry] at h
  obtain ⟨nameAndKind, -, h⟩ := Option.bind_eq_some_iff.mp h
  rw [Scan.emit_lookup h]
  exact s.append_fills entry

theorem replayEntry_fills (h : replayEntry q m t entry s = some (.ok, s')) :
    Fills s.lookup s'.lookup [entry.toMatch] := by
  rw [replayEntry] at h
  obtain ⟨nameAndKind, -, h⟩ := Option.bind_eq_some_iff.mp h
  split at h
  · cases h
  · rw [Scan.emit_lookup h]
    exact s.append_fills entry

end

/-! ## Replaying a lookup -/

section

variable {q : Query} {m : Mapped} {t : TableV2}

/-- The replay inside an image, and the rest of the replay behind it. -/
def replayFrom (q : Query) (m : Mapped) (t : TableV2) (passes defining : Nat) (row : ImageRow)
    (matched : List ExportMatch) (e : Nat) (s : Emitted) : Option (Ended Emitted) := do
  match ← replayExports q m t defining row matched e s with
  | (.ok, s, left) => replayDefinitions q m t passes (defining + 1) left s
  | (status, s, _) => some (status, s)

/-- A match of the image at hand is used, and the replay goes on behind it. -/
theorem replayFrom_here {passes defining e : Nat} {row : ImageRow} {entry : IndexEntry}
    (hentry : EntryOf m t entry row) (hdefining : entry.definingImage = defining)
    (he : e < row.exportCount) (matched : List ExportMatch) (s : Emitted) :
    replayFrom q m t passes defining row (entry.toMatch :: matched) e s =
      andThen (useEntry q m t entry s)
        (replayFrom q m t passes defining row matched (t.offset m entry + 1)) := by
  have hoffset : (entry.exportIndex + 2 ^ 32 - row.exportFirst) % 2 ^ 32 = t.offset m entry := by
    rw [TableV2.offset, hentry.rowAt]
  have hnext : (t.offset m entry + 1) % 2 ^ 32 = t.offset m entry + 1 := by
    have hcount := (TableV2.image_lt hentry.rowAt).2
    have hlt := hentry.offset
    exact Nat.mod_eq_of_lt (by omega)
  rw [replayFrom, replayExports, if_neg]
  · dsimp only [IndexEntry.toMatch]
    rw [hoffset, hentry.exportIndex, hnext, useEntry]
    cases t.nameAndKind m entry.exportIndex with
    | none => rfl
    | some nameAndKind =>
      simp only [Option.bind_eq_bind, Option.bind_some, hdefining]
      rcases useExport q m t defining entry.exportIndex nameAndKind s with _ | ⟨status, s'⟩
      · rfl
      · cases status <;> rfl
  · rw [not_or, Nat.not_le]
    exact ⟨he, not_not.mpr hdefining⟩

/-- The next match belongs to a later image. -/
theorem replayFrom_later {passes defining e : Nat} {row row' : ImageRow} {entry : IndexEntry}
    (hentry : EntryOf m t entry row') (hdefining : defining < entry.definingImage)
    (matched : List ExportMatch) (s : Emitted) :
    replayFrom q m t (passes + 1) defining row (entry.toMatch :: matched) e s =
      replayFrom q m t passes entry.definingImage row' (entry.toMatch :: matched) 0 s := by
  have hlast := hentry.image
  rw [replayFrom, replayExports, if_pos (.inr (by dsimp only [IndexEntry.toMatch]; omega))]
  simp only [Option.bind_eq_bind, Option.bind_some]
  rw [replayDefinitions, if_neg (by omega)]
  rw [show entry.toMatch.definingImage = entry.definingImage from rfl, hentry.rowAt]
  simp only [Option.bind_eq_bind, Option.bind_some]
  rw [if_neg (not_not.mpr hentry.holds)]
  rfl

/-- What is left to be replayed at a place of an image. -/
theorem replayFrom_eq {passes defining e : Nat} {row : ImageRow} {l : List IndexEntry}
    (hpasses : l.length < passes) (hrow : t.image m defining = some row)
    (hentries : ∀ entry ∈ l, ∃ row, EntryOf m t entry row) (hordered : l.Pairwise (Before m t))
    (hleft : ∀ entry ∈ l, defining < entry.definingImage ∨
      entry.definingImage = defining ∧ e ≤ t.offset m entry) (s : Emitted) :
    replayFrom q m t passes defining row (l.map IndexEntry.toMatch) e s = useAll q m t l s := by
  induction l generalizing passes defining e row s with
  | nil =>
    obtain ⟨passes, rfl⟩ := Nat.exists_eq_succ_of_ne_zero (Nat.ne_of_gt hpasses)
    show replayDefinitions q m t (passes + 1) (defining + 1) [] s = some (.ok, s)
    rw [replayDefinitions]
    split <;> rfl
  | cons entry rest ih =>
    obtain ⟨row', hentry⟩ := hentries entry List.mem_cons_self
    rw [List.pairwise_cons] at hordered
    have hrest : ∀ entry ∈ rest, ∃ row, EntryOf m t entry row :=
      fun entry hmem ↦ hentries entry (List.mem_cons_of_mem _ hmem)
    rw [List.length_cons] at hpasses
    -- behind this match: later places of its image, or later images
    have hbehind : ∀ other ∈ rest, entry.definingImage < other.definingImage ∨
        other.definingImage = entry.definingImage ∧ t.offset m entry + 1 ≤ t.offset m other :=
      fun other hother ↦ (hordered.1 other hother).imp id fun h ↦ ⟨h.1.symm, h.2⟩
    rw [List.map_cons, useAll, forEach]
    have hhere : ∀ passes e, rest.length < passes → e < row'.exportCount →
        replayFrom q m t passes entry.definingImage row'
          (entry.toMatch :: rest.map IndexEntry.toMatch) e s =
        andThen (useEntry q m t entry s) (forEach (useEntry q m t) rest) := by
      intro passes e hpasses he
      rw [replayFrom_here hentry rfl he]
      congr 1
      funext s
      exact ih hpasses hentry.rowAt hrest hordered.2 hbehind s
    rcases hleft entry List.mem_cons_self with hlater | ⟨rfl, he⟩
    · obtain ⟨passes, rfl⟩ :=
        Nat.exists_eq_succ_of_ne_zero (Nat.ne_of_gt (Nat.zero_lt_of_lt hpasses))
      rw [replayFrom_later hentry hlater]
      exact hhere passes 0 (by omega) (Nat.zero_lt_of_lt hentry.offset)
    · cases hrow.symm.trans hentry.rowAt
      exact hhere passes e (by omega) (Nat.lt_of_le_of_lt he hentry.offset)

/-- **The replay of a complete lookup** uses the exports that match. -/
theorem replayDefinitions_eq {entries : List (CString × IndexEntry)} (h : Recorded m t entries)
    (candidates : List CString) (s : Emitted) :
    replayDefinitions q m t ((matching candidates entries).length + 2) 0
      ((matching candidates entries).map IndexEntry.toMatch) s =
      useAll q m t (matching candidates entries) s := by
  have hordered := h.matching_ordered candidates
  have hentries : ∀ entry ∈ matching candidates entries, ∃ row, EntryOf m t entry row :=
    fun entry hentry ↦ (h.matching_entry hentry).elim fun row hrow ↦
      hrow.elim fun _ hrow ↦ ⟨row, hrow.1⟩
  generalize matching candidates entries = l at hordered hentries ⊢
  cases l with
  | nil =>
    rw [List.map_nil, replayDefinitions]
    split <;> rfl
  | cons entry rest =>
    obtain ⟨row, hentry⟩ := hentries entry List.mem_cons_self
    have himage := hentry.image
    rw [List.map_cons, replayDefinitions, if_neg (by omega)]
    rw [show entry.toMatch.definingImage = entry.definingImage from rfl, hentry.rowAt]
    simp only [Option.bind_eq_bind, Option.bind_some]
    rw [if_neg (not_not.mpr hentry.holds)]
    show replayFrom q m t _ entry.definingImage row ((entry :: rest).map IndexEntry.toMatch) 0 s = _
    refine replayFrom_eq (Nat.lt_succ_self _) hentry.rowAt hentries hordered
      (fun other hother ↦ ?_) s
    rcases List.mem_cons.mp hother with rfl | hother
    · exact .inr ⟨rfl, Nat.zero_le _⟩
    · exact ((List.pairwise_cons.mp hordered).1 other hother).imp id fun h ↦
        ⟨h.1.symm, Nat.zero_le _⟩

end

end HookKit.CachePatches
