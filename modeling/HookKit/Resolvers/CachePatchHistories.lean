import HookKit.Resolvers.CachePatchIndex

/-!
# Histories of queries

What a query answers does not depend on the queries before it, and what it reads lies where it
should.

* `Lookup.Valid`, `IndexSlot.Valid` — what a complete lookup and a published index hold.
* `Process.Reached.valid` — both stay so along every history.
* `query_agrees` — a query answers as if it were the first, with no lookup and no index.
* `query_inside` — when a query reads inside the cache and the patch region.
-/

set_option autoImplicit false

namespace HookKit.CachePatches

open LittleEndian Checked MachO

/-! ## Building an index -/

section

variable {m : Mapped} {t : TableV2}

theorem checkRows_spec {l : List Nat} {capacity result : Nat}
    (h : checkRows m t l capacity = some (some result)) :
    ∀ i ∈ l, ∃ row, t.image m i = some row ∧ t.Holds row := by
  induction l generalizing capacity with
  | nil => nofun
  | cons i rest ih =>
    rw [checkRows] at h
    obtain ⟨row, hrow, h⟩ := Option.bind_eq_some_iff.mp h
    split at h
    · cases h
    · rename_i hholds
      rw [not_or, not_not] at hholds
      intro j hj
      rcases List.mem_cons.mp hj with rfl | hj
      · exact ⟨row, hrow, hholds.1⟩
      · exact ih h j hj

theorem checkRows_safe (hm : m.Fits) (ht : t.Inside m) {l : List Nat}
    (hl : ∀ i ∈ l, i < t.images.count) (capacity : Nat) :
    Safe (checkRows m t l capacity) fun _ ↦ True := by
  induction l generalizing capacity with
  | nil => exact .some trivial
  | cons i rest ih =>
    rw [checkRows]
    exact .bind (TableV2.image_safe hm ht (hl i List.mem_cons_self)) fun row _ ↦
      .ite (fun _ ↦ .some trivial) fun _ ↦ ih (fun j hj ↦ hl j (List.mem_cons_of_mem _ hj)) _

theorem collect_safe {α β : Type} {f : α → Option (Option β)} {l : List α}
    (h : ∀ a ∈ l, Safe (f a) fun _ ↦ True) : Safe (collect f l) fun _ ↦ True := by
  induction l with
  | nil => exact .some trivial
  | cons a rest ih =>
    rw [collect]
    refine .bind (h a List.mem_cons_self) fun b _ ↦ ?_
    cases b with
    | none => exact .some trivial
    | some b =>
      refine .bind (ih fun c hc ↦ h c (List.mem_cons_of_mem _ hc)) fun bs _ ↦ ?_
      cases bs <;> exact .some trivial

/-- What an index of the process holds. -/
def Indexed (m : Mapped) (version : Nat) (index : List IndexEntry) : Prop :=
  ∃ t entries, loadV2 m version = some (some t) ∧ t.imageExports.count ≤ uint32Max ∧
    Recorded m t entries ∧ index = sortEntries entries

/-- **Building an index** reads inside the tables; what is built holds the exports. -/
theorem cacheIndexBuild_safe (hm : m.Fits) (version : Nat) (heap : List Bool) :
    Safe (cacheIndexBuild m version heap) fun r ↦
      ∀ index, r.1 = some index → Indexed m version index := by
  rw [cacheIndexBuild]
  refine .step (loadV2_safe hm version) fun t hload ht ↦ ?_
  cases t with
  | none => exact .some nofun
  | some t =>
    have ht := ht t rfl
    refine .ite (fun _ ↦ .some nofun) fun hindexable ↦ ?_
    have hcount : t.imageExports.count ≤ uint32Max := by
      simp only [TableV2.indexable, Bool.not_eq_true', Bool.and_eq_false_iff,
        not_or, Bool.not_eq_false,
        decide_eq_true_eq] at hindexable
      exact hindexable.2
    refine .step (checkRows_safe hm ht (fun i ↦ List.mem_range.mp) 0) fun capacity hrows _ ↦ ?_
    cases capacity with
    | none => exact .some nofun
    | some capacity =>
      refine .ite (fun _ ↦ .some nofun) fun _ ↦ ?_
      rcases (if capacity = 0 then (true, heap) else allocate heap) with ⟨_ | _, heap'⟩
      · exact .some nofun
      · have hall := checkRows_spec hrows
        refine .step (collect_safe fun i hi ↦ ?_) fun perImage hperImage _ ↦ ?_
        · obtain ⟨row, hrow, hholds⟩ := hall i hi
          rw [indexDefinition, hrow]
          refine collect_safe fun e he ↦ ?_
          rw [indexExport]
          have hexport : (row.exportFirst + e) % 2 ^ 32 < t.imageExports.count := by
            have hlt := List.mem_range.mp he
            have hle := hholds.2
            exact Nat.lt_of_le_of_lt (Nat.mod_le _ _) (by omega)
          refine .bind (TableV2.nameAndKind_safe hm ht hexport) fun nameAndKind _ ↦
            .bind (Table.string_safe hm ht.names _) fun name _ ↦ ?_
          cases name <;> exact .some trivial
        · cases perImage with
          | none => exact .some nofun
          | some perImage =>
            refine .some fun index hindex ↦ ?_
            cases hindex
            exact ⟨t, perImage.flatten, hload, hcount,
              ⟨fun i hi ↦ hall i (List.mem_range.mpr hi), perImage, hperImage, rfl⟩, rfl⟩

end

/-! ## The three ways -/

section

variable {q : Query} {m : Mapped} {t : TableV2}

/-- The matches of some candidates, as a complete lookup keeps them. -/
def MatchesOf (candidates : List CString) (m : Mapped) (t : TableV2) (matched : List ExportMatch) :
    Prop :=
  ∃ entries, Recorded m t entries ∧
    matched = (matching candidates entries).map IndexEntry.toMatch

/-- How a scan may leave the lookup: as it is when it was complete, and else with all matches
added. -/
def LeavesLookup (q : Query) (m : Mapped) (t : TableV2) (s s' : Scan) : Prop :=
  ∃ matched, MatchesOf q.candidates m t matched ∧
    (s'.lookup = s.lookup ∧ (∃ l, s.lookup = some l ∧ l.complete = true) ∨
      (∀ l, s.lookup = some l → l.complete = false) ∧ Fills s.lookup s'.lookup matched)

/-- The direct scan of the tables. -/
def directScan (q : Query) (m : Mapped) (t : TableV2) (emitted : Emitted) :
    Option (Ended Emitted) :=
  answerOf (forEach (scanDefinition q m t) (List.range t.images.count) ⟨emitted, none, []⟩)

/-- One way of going through the tables: it answers as the direct scan, and when it has gone
through, the lookup has the matches. -/
structure Agrees (q : Query) (m : Mapped) (t : TableV2) (s : Scan) (ended : Option (Ended Scan)) :
    Prop where
  answer : answerOf ended = directScan q m t s.emitted
  leaves : ∀ s', ended = some (.ok, s') → LeavesLookup q m t s s'

theorem replay_agrees {s : Scan} {l : Lookup} (hl : s.lookup = some l)
    (hcomplete : l.complete = true)
    (hmatched : MatchesOf q.candidates m t l.matched) :
    Agrees q m t s (s.emit (replayDefinitions q m t (l.matched.length + 2) 0 l.matched)) := by
  constructor
  · obtain ⟨entries, hrecorded, hentries⟩ := hmatched
    rw [answerOf_emit, directScan, scan_answer hrecorded, hentries, List.length_map]
    exact replayDefinitions_eq hrecorded q.candidates s.emitted
  · intro s' heq
    exact ⟨l.matched, hmatched, .inl ⟨Scan.emit_lookup heq, l, hl, hcomplete⟩⟩

theorem index_agrees (hm : m.Fits) (hload : loadV2 m q.version = some (some t))
    (hnodup : q.candidates.Nodup) {index : List IndexEntry} (hindex : Indexed m q.version index)
    {s : Scan} (hincomplete : ∀ l, s.lookup = some l → l.complete = false) :
    Agrees q m t s (do
      let merged ← mergedRuns m index q.candidates
      forEach (replayEntry q m t) merged s) := by
  obtain ⟨t', entries, hload', hcount, hrecorded, rfl⟩ := hindex
  cases hload.symm.trans hload'
  have ht := (loadV2_safe hm q.version).of_eq hload t rfl
  rw [mergedRuns_eq hrecorded ht.names hcount hnodup]
  show Agrees q m t s (forEach (replayEntry q m t) (matching q.candidates entries) s)
  constructor
  · rw [answerOf_forEach answerOf_replayEntry, directScan, scan_answer hrecorded]
    rfl
  · intro s' heq
    exact ⟨_, ⟨entries, hrecorded, rfl⟩,
      .inr ⟨hincomplete, forEach_fills (fun _ _ _ ↦ replayEntry_fills) heq⟩⟩

theorem scan_agrees {s : Scan} (hincomplete : ∀ l, s.lookup = some l → l.complete = false) :
    Agrees q m t s (forEach (scanDefinition q m t) (List.range t.images.count) s) := by
  constructor
  · exact scan_blind s _ rfl
  · intro s' heq
    obtain ⟨entries, hrecorded⟩ := scan_recorded heq
    rw [forEach_scan hrecorded] at heq
    exact ⟨_, ⟨entries, hrecorded, rfl⟩,
      .inr ⟨hincomplete, forEach_fills (fun _ _ _ ↦ scanEntry_fills) heq⟩⟩

/-- **The three ways agree.** -/
theorem parseTables_agrees (hm : m.Fits) (hload : loadV2 m q.version = some (some t))
    (hnodup : q.candidates.Nodup) {index : Option (List IndexEntry)}
    (hindex : ∀ entries, index = some entries → Indexed m q.version entries) {s : Scan}
    (hlookup : ∀ l, s.lookup = some l → l.complete = true →
      MatchesOf q.candidates m t l.matched) :
    Agrees q m t s (parseTables q m t index s) := by
  unfold parseTables
  cases hl : s.lookup.filter Lookup.complete with
  | some l =>
    obtain ⟨hl, hcomplete⟩ := Option.filter_eq_some_iff.mp hl
    exact replay_agrees hl hcomplete (hlookup l hl hcomplete)
  | none =>
    have hincomplete : ∀ l, s.lookup = some l → l.complete = false := fun l hsome ↦ by
      rw [hsome] at hl
      simpa using hl
    cases index with
    | some entries => exact index_agrees hm hload hnodup (hindex entries rfl) hincomplete
    | none => exact scan_agrees hincomplete

end

/-! ## The parser -/

/-- What a complete lookup says about the tables that a query is about. -/
def Lookup.Knows (q : Query) (m : Mapped) (l : Lookup) : Prop :=
  l.complete = true → l.view = some m.view → l.version = q.version →
    ∃ t, loadV2 m q.version = some (some t) ∧ MatchesOf q.candidates m t l.matched

/-- A lookup behind a query that went through: if it is complete, it has not been touched, or it has
the matches of the query. -/
structure Lookup.After (q : Query) (m : Mapped) (l l' : Lookup) : Prop where
  same : l'.symbol = l.symbol ∧ l'.convention = l.convention
  complete : l'.complete = true → l' = l ∨ l'.allocationFailed = false ∧ l'.view = some m.view ∧
    l'.version = q.version ∧ ∃ t, loadV2 m q.version = some (some t) ∧
      MatchesOf q.candidates m t l'.matched

theorem Lookup.begin_same (l : Lookup) (view : CacheView) (version : Nat) :
    (l.begin view version).symbol = l.symbol ∧ (l.begin view version).convention = l.convention ∧
      (l.begin view version).view = some view ∧ (l.begin view version).version = version := by
  rw [Lookup.begin]
  split
  · rename_i h
    exact ⟨rfl, rfl, h.1, h.2.1⟩
  · exact ⟨rfl, rfl, rfl, rfl⟩

/-- A lookup that is complete when the scan begins has been complete for this very view. -/
theorem Lookup.begin_complete {l : Lookup} {view : CacheView} {version : Nat}
    (h : (l.begin view version).complete = true) :
    l.begin view version = l ∧ l.view = some view ∧ l.version = version ∧ l.complete = true := by
  rw [Lookup.begin] at h ⊢
  split at h
  · rename_i hsame
    rw [if_pos hsame]
    exact ⟨rfl, hsame⟩
  · cases h

theorem Lookup.begin_empty {l : Lookup} {view : CacheView} {version : Nat}
    (h : (l.begin view version).complete = false) : (l.begin view version).matched = [] := by
  rw [Lookup.begin] at h ⊢
  split at h
  · rename_i hsame
    rw [hsame.2.2] at h
    cases h
  · rename_i hsame
    rw [if_neg hsame]

section

variable {q : Query} {m : Mapped} {t : TableV2}

/-- The end of a scan that went through: the lookup is complete now, unless it ran out of memory. -/
theorem finish_after (hload : loadV2 m q.version = some (some t)) {l l' : Lookup} {s s' : Scan}
    (hs : s.lookup = some (l.begin m.view q.version)) (hleaves : LeavesLookup q m t s s')
    (hl' : s'.finish.lookup = some l') : l.After q m l' := by
  obtain ⟨hsymbol, hconvention, hview, hversion⟩ := l.begin_same m.view q.version
  obtain ⟨matched, hmatches, hleaves⟩ := hleaves
  rw [Scan.finish] at hl'
  obtain ⟨l₁, hl₁, rfl⟩ := Option.map_eq_some_iff.mp hl'
  rw [hs] at hleaves
  rcases hleaves with ⟨heq, l₂, hl₂, hcomplete⟩ | ⟨hincomplete, hfills⟩
  · cases hl₂
    obtain ⟨hsame, hview', hversion', hcomplete'⟩ := Lookup.begin_complete hcomplete
    rw [hl₁, hsame] at heq
    cases heq
    have hunchanged : (if l.allocationFailed then l else { l with complete := true }) = l := by
      rw [← hcomplete', ite_self]
    rw [hunchanged]
    exact ⟨⟨rfl, rfl⟩, fun _ ↦ .inl rfl⟩
  · rw [hl₁] at hfills
    cases hfills with
    | some h =>
      have hempty := hincomplete _ rfl
      split
      · refine ⟨⟨h.same.1.trans hsymbol, h.same.2.1.trans hconvention⟩, fun hcomplete ↦ ?_⟩
        rw [h.same.2.2.2.2, hempty] at hcomplete
        cases hcomplete
      · rename_i hfailed
        refine ⟨⟨h.same.1.trans hsymbol, h.same.2.1.trans hconvention⟩, fun _ ↦ .inr
          ⟨eq_false_of_ne_true hfailed, h.same.2.2.1.trans hview, h.same.2.2.2.1.trans hversion,
            t, hload, ?_⟩⟩
        have hmatched := h.matched.resolve_left hfailed
        rw [Lookup.begin_empty hempty, List.nil_append] at hmatched
        show MatchesOf q.candidates m t l₁.matched
        rwa [hmatched]

/-- What is done with the end of the scan does not change the answer. -/
theorem answerOf_ended (ended : Option (Ended Scan)) (lookup : Option Lookup) :
    answerOf (do
      match ← ended with
      | (.ok, s') => some (.ok, { s'.finish with lookup := s'.finish.lookup.or lookup })
      | (status, s') => some (status, { s' with lookup := s'.lookup.or lookup })) =
    answerOf ended := by
  rcases ended with _ | ⟨status, s'⟩
  · rfl
  · cases status <;> rfl

/-- **The parser of versions 2 to 4** answers as the direct scan, and leaves a complete lookup with
the matches. -/
theorem parseV2V4_agrees (hm : m.Fits) (hnodup : q.candidates.Nodup)
    {index : Option (List IndexEntry)}
    (hindex : ∀ entries, index = some entries → Indexed m q.version entries) {s : Scan}
    (hlookup : ∀ l, s.lookup = some l → l.Knows q m) :
    answerOf (parseV2V4 q m index s) = answerOf (parseV2V4 q m none ⟨s.emitted, none, []⟩) ∧
    ∀ s', parseV2V4 q m index s = some (.ok, s') → ∀ l', s'.lookup = some l' →
      ∃ l, s.lookup = some l ∧ l.After q m l' := by
  rw [parseV2V4, parseV2V4]
  obtain ⟨t?, hload, ht⟩ := loadV2_safe hm q.version
  rw [hload]
  simp only [Option.bind_eq_bind, Option.bind_some]
  cases t? with
  | none => exact ⟨rfl, nofun⟩
  | some t =>
    dsimp only
    by_cases hrefused : t.images.count = 0 ∨ q.importerIndex ≥ t.images.count ∨
        q.version ≥ 3 ∧ t.gotClients.count ≠ t.images.count
    · rw [if_pos hrefused, if_pos hrefused]
      exact ⟨rfl, nofun⟩
    rw [if_neg hrefused, if_neg hrefused]
    generalize hused : (s.lookup.filter fun l ↦ !l.allocationFailed).map
      (·.begin m.view q.version) = used
    have hknown : ∀ l, used = some l → ∃ l₀, s.lookup = some l₀ ∧ l =
        l₀.begin m.view q.version := by
      rintro l rfl
      obtain ⟨l₀, hl₀, rfl⟩ := Option.map_eq_some_iff.mp hused
      exact ⟨l₀, (Option.filter_eq_some_iff.mp hl₀).1, rfl⟩
    have hagrees := @parseTables_agrees q m t hm hload hnodup index hindex
      { s with lookup := used } fun l hl hcomplete ↦ by
        obtain ⟨l₀, hl₀, rfl⟩ := hknown l hl
        obtain ⟨hsame, hview, hversion, hcomplete⟩ := Lookup.begin_complete hcomplete
        obtain ⟨t', hload', hmatches⟩ := hlookup l₀ hl₀ hcomplete hview hversion
        cases hload.symm.trans hload'
        rwa [hsame]
    have hdirect := @parseTables_agrees q m t hm hload hnodup none nofun ⟨s.emitted, none, []⟩ nofun
    refine ⟨(answerOf_ended _ _).trans
      (hagrees.answer.trans (hdirect.answer.symm.trans (answerOf_ended _ _).symm)), ?_⟩
    intro s' hended l' hl'
    obtain ⟨⟨status, s₁⟩, heq, hended⟩ := Option.bind_eq_some_iff.mp hended
    cases status with
    | ok =>
      cases hended
      have hleaves := hagrees.leaves s₁ heq
      dsimp only at hl'
      cases hfinish : s₁.finish.lookup with
      | none =>
        rw [hfinish, Option.none_or] at hl'
        exact ⟨l', hl', ⟨rfl, rfl⟩, fun _ ↦ .inl rfl⟩
      | some l₁ =>
        rw [hfinish, Option.some_or] at hl'
        cases hl'
        cases used with
        | none =>
          -- a scan without a lookup does not come back with one
          exfalso
          obtain ⟨matched, -, ⟨hsame, l, hl, -⟩ | ⟨-, hfills⟩⟩ := hleaves
          · cases hl
          · rw [Scan.finish] at hfinish
            obtain ⟨l₂, hl₂, -⟩ := Option.map_eq_some_iff.mp hfinish
            rw [hl₂] at hfills
            cases hfills
        | some l =>
          obtain ⟨l₀, hl₀, rfl⟩ := hknown l rfl
          exact ⟨l₀, hl₀, finish_after hload rfl hleaves hfinish⟩
    | _ => cases hended

theorem answerOf_eq_none {ended : Option (Ended Scan)} : answerOf ended = none ↔ ended = none :=
  Option.map_eq_none_iff

/-- The direct scan reads inside the tables. -/
theorem parseV2V4_direct_safe (hm : m.Fits)
    (hheader : q.target.headerOffset + q.target.imageHeaderSize ≤ m.bytes.length)
    (emitted : Emitted) :
    parseV2V4 q m none ⟨emitted, none, []⟩ ≠ none := by
  rw [parseV2V4]
  obtain ⟨t?, hload, ht⟩ := loadV2_safe hm q.version
  rw [hload]
  simp only [Option.bind_eq_bind, Option.bind_some]
  cases t? with
  | none => nofun
  | some t =>
    dsimp only
    by_cases hrefused : t.images.count = 0 ∨ q.importerIndex ≥ t.images.count ∨
        q.version ≥ 3 ∧ t.gotClients.count ≠ t.images.count
    · rw [if_pos hrefused]
      nofun
    rw [if_neg hrefused]
    have hgot : t.GotRows q.version := fun hversion ↦ by
      by_contra hne
      exact hrefused (.inr (.inr ⟨hversion, hne⟩))
    have hscan :
        Safe (forEach (scanDefinition q m t) (List.range t.images.count) ⟨emitted, none, []⟩)
        fun _ ↦ True :=
      forEach_safe (I := fun _ ↦ True) (fun i hi s _ ↦
        scan_safe hm (ht t rfl) hheader hgot (List.mem_range.mp hi) s) trivial
    rw [ne_eq, ← answerOf_eq_none]
    refine fun hnone ↦ hscan.ne_none (answerOf_eq_none.mp (.trans ?_ hnone))
    exact (answerOf_ended (forEach (scanDefinition q m t) (List.range t.images.count) _) none).symm

end

/-! ## A query -/

/-- The bytes of a view. -/
def Memory.mapped (memory : Memory) (view : CacheView) : Mapped :=
  ⟨memory.read view.base view.size, view⟩

/-- A published index holds the exports of its view. -/
def IndexSlot.Valid (memory : Memory) (slot : IndexSlot) : Prop :=
  Indexed (memory.mapped slot.view) slot.version slot.entries

/-- A complete lookup holds the matches of its symbol in its view. -/
def Lookup.Valid (memory : Memory) (l : Lookup) : Prop :=
  l.complete = true → ∃ view t candidates, l.view = some view ∧
    loadV2 (memory.mapped view) l.version = some (some t) ∧
    symbolBuildCandidates l.symbol l.convention = some candidates ∧
    MatchesOf candidates (memory.mapped view) t l.matched

theorem symbolBuildCandidates_nodup {name : CString} {convention : NameConvention}
    {candidates : List CString} (h : symbolBuildCandidates name convention = some candidates) :
    candidates.Nodup := by
  rw [symbolBuildCandidates] at h
  split at h
  · cases h
  split at h
  · cases h
  split at h
  · cases h
    exact List.nodup_singleton name
  · cases h
    rw [List.nodup_cons, List.mem_singleton]
    refine ⟨fun heq ↦ ?_, List.nodup_singleton _⟩
    have hlength := congrArg List.length heq
    rw [List.length_cons] at hlength
    omega

section

variable {memory : Memory} {view : CacheView} {version : Nat}

theorem cacheIndexAcquire_spec (hm : (memory.mapped view).Fits) {slots : List IndexSlot}
    (hslots : ∀ slot ∈ slots, slot.Valid memory) (heap : List Bool) :
    Safe (cacheIndexAcquire (memory.mapped view) version slots heap) fun r ↦
      (∀ index, r.1 = some index → Indexed (memory.mapped view) version index) ∧
      ∀ slot ∈ r.2.1, slot.Valid memory := by
  rw [cacheIndexAcquire]
  cases hfind : slots.find? fun slot ↦ slot.version = version && slot.view =
    (memory.mapped view).view with
  | some slot =>
    refine .some ⟨fun index hindex ↦ ?_, hslots⟩
    cases hindex
    have hsame := List.find?_some hfind
    rw [Bool.and_eq_true, decide_eq_true_eq, decide_eq_true_eq] at hsame
    have hvalid := hslots slot (List.mem_of_find?_eq_some hfind)
    rw [IndexSlot.Valid, hsame.1, hsame.2] at hvalid
    exact hvalid
  | none =>
    refine .ite (fun _ ↦ ?_) fun _ ↦ .some ⟨nofun, hslots⟩
    refine .bind (cacheIndexBuild_safe hm version heap) fun r hr ↦ ?_
    obtain ⟨index, heap'⟩ := r
    cases index with
    | none => exact .some ⟨nofun, hslots⟩
    | some index =>
      refine .some ⟨fun index' hindex' ↦ ?_, fun slot hslot ↦ ?_⟩
      · cases hindex'
        exact hr index rfl
      · rcases List.mem_append.mp hslot with hslot | hslot
        · exact hslots slot hslot
        · rw [List.mem_singleton.mp hslot]
          exact hr index rfl

theorem queryIndex_spec (hm : (memory.mapped view).Fits) {slots : List IndexSlot}
    (hslots : ∀ slot ∈ slots, slot.Valid memory) (target : PatchTarget) (s : Scan) :
    Safe (queryIndex target (memory.mapped view) version slots s) fun r ↦
      (∀ index, r.1 = some index → Indexed (memory.mapped view) version index) ∧
      ∀ slot ∈ r.2.1, slot.Valid memory := by
  rw [queryIndex]
  exact .ite (fun _ ↦ cacheIndexAcquire_spec hm hslots s.heap) fun _ ↦ .some ⟨nofun, hslots⟩

theorem Lookup.Valid.knows {l : Lookup} (h : l.Valid memory) {q : Query}
    (hcandidates : symbolBuildCandidates l.symbol l.convention = some q.candidates) :
    l.Knows q (memory.mapped view) := by
  intro hcomplete hview hversion
  obtain ⟨view', t, candidates, hview', hload, hcandidates', hmatches⟩ := h hcomplete
  cases hview.symm.trans hview'
  cases hcandidates.symm.trans hcandidates'
  rw [hversion] at hload
  exact ⟨t, hload, hmatches⟩

theorem Lookup.After.valid {l l' : Lookup} {q : Query} (h : l.After q (memory.mapped view) l')
    (hl : l.Valid memory)
    (hcandidates : symbolBuildCandidates l.symbol l.convention = some q.candidates) :
    l'.Valid memory := by
  intro hcomplete
  rcases h.complete hcomplete with rfl | ⟨-, hview, hversion, t, hload, hmatches⟩
  · exact hl hcomplete
  · refine ⟨view, t, q.candidates, hview, ?_, ?_, hmatches⟩
    · rw [hversion]
      exact hload
    · rw [h.same.1, h.same.2]
      exact hcandidates

/-- The lookup of a query is valid, and about the candidates of the query. -/
def Scan.Valid (memory : Memory) (candidates : List CString) (s : Scan) : Prop :=
  ∀ l, s.lookup = some l →
    l.Valid memory ∧ symbolBuildCandidates l.symbol l.convention = some candidates

/-- The target of a query that may not use the index. -/
def PatchTarget.direct (target : PatchTarget) : PatchTarget :=
  { target with immutableMetadata := false }

/-- The answer of a query, without what is left behind. -/
def endedOf (ended : Option (Ended Scan × List IndexSlot)) : Option (Ended Emitted) :=
  answerOf (ended.map Prod.fst)

theorem endedOf_bind (ended : Option (Ended Scan)) (slots : List IndexSlot) :
    (endedOf do
      let ended ← ended
      some (ended, slots)) = answerOf ended := by
  cases ended <;> rfl

theorem parseVersion_agrees (hm : (memory.mapped view).Fits) {slots : List IndexSlot}
    (hslots : ∀ slot ∈ slots, slot.Valid memory) {candidates : List CString}
    (hnodup : candidates.Nodup) {s : Scan} (hs : s.Valid memory candidates) (target : PatchTarget)
    (importer : Nat) :
    endedOf (parseVersion target (memory.mapped view) version importer candidates slots s) =
      endedOf (parseVersion target.direct (memory.mapped view) version importer candidates []
        ⟨s.emitted, none, []⟩) ∧
    ∀ status s' slots',
    parseVersion target (memory.mapped view) version importer candidates slots s =
        some ((status, s'), slots') →
      (∀ slot ∈ slots', slot.Valid memory) ∧
        (status = .ok → ∀ l, s'.lookup = some l → l.Valid memory) := by
  rw [parseVersion, parseVersion]
  by_cases hversion : version = 1
  · rw [if_pos hversion, if_pos hversion]
    constructor
    · have hleft := answerOf_emit (parseV1 target.toPatchImage (memory.mapped view) candidates) s
      have hright := answerOf_emit (parseV1 target.toPatchImage (memory.mapped view) candidates)
        ⟨s.emitted, none, []⟩
      exact (endedOf_bind _ _).trans (hleft.trans (hright.symm.trans (endedOf_bind _ _).symm))
    · intro status s' slots' heq
      obtain ⟨ended, hended, heq⟩ := Option.bind_eq_some_iff.mp heq
      cases heq
      refine ⟨hslots, fun _ l hl ↦ (hs l ?_).1⟩
      rw [← Scan.emit_lookup hended]
      exact hl
  · rw [if_neg hversion, if_neg hversion]
    obtain ⟨⟨index, slots₁, heap⟩, hindex, hindexed, hslots₁⟩ :=
      @queryIndex_spec memory view version hm slots hslots target s
    rw [hindex]
    simp only [Option.bind_eq_bind, Option.bind_some]
    have hagrees := @parseV2V4_agrees ⟨target.toPatchImage, version, importer, candidates⟩
      (memory.mapped view) hm hnodup index hindexed { s with heap := heap }
      fun l hl ↦ (hs l hl).1.knows (hs l hl).2
    constructor
    · exact (endedOf_bind _ _).trans (hagrees.1.trans (endedOf_bind _ _).symm)
    · intro status s' slots' heq
      obtain ⟨ended, hended, heq⟩ := Option.bind_eq_some_iff.mp heq
      cases heq
      refine ⟨hslots₁, ?_⟩
      rintro rfl l' hl'
      obtain ⟨l, hl, hafter⟩ := hagrees.2 s' hended l' hl'
      exact hafter.valid (hs l hl).1 (hs l hl).2

/-- What is answered depends on what has been emitted only. -/
theorem answerOf_close {a b : Option (Ended Scan)} (h : answerOf a = answerOf b) :
    answerOf (a.map close) = answerOf (b.map close) := by
  rcases a with _ | ⟨status, s⟩ <;> rcases b with _ | ⟨status', s'⟩
  · rfl
  · cases h
  · cases h
  · obtain ⟨rfl, hemitted⟩ : status = status' ∧ s.emitted = s'.emitted := by
      simpa [answerOf] using h
    cases status <;> simp [answerOf, close, hemitted]

theorem close_lookup {ended : Ended Scan} (h : ended.1 = .ok →
    ∀ l, ended.2.lookup = some l → l.Valid memory) {l : Lookup}
    (hl : (close ended).2.lookup = some l) : l.Valid memory := by
  obtain ⟨status, s⟩ := ended
  cases status with
  | ok => exact h rfl l hl
  | _ =>
    -- the lookup has to scan again
    obtain ⟨l', -, rfl⟩ := Option.map_eq_some_iff.mp hl
    exact nofun

theorem endedOf_close (ended : Option (Ended Scan × List IndexSlot)) :
    (endedOf do
      let (ended, slots) ← ended
      some (close ended, slots)) = answerOf ((ended.map Prod.fst).map close) := by
  rcases ended with _ | _ <;> rfl

/-- A query that answers as one with no lookup and no index, and leaves both in order. -/
structure QueryAgrees (memory : Memory) (ended direct : Option (Ended Scan × List IndexSlot)) :
    Prop where
  answer : endedOf ended = endedOf direct
  slots : ∀ r, ended = some r → ∀ slot ∈ r.2, slot.Valid memory
  lookup : ∀ r, ended = some r → ∀ l, r.1.2.lookup = some l → l.Valid memory

theorem QueryAgrees.failed : QueryAgrees memory none none := ⟨rfl, nofun, nofun⟩

theorem QueryAgrees.unchanged {slots : List IndexSlot} (hslots : ∀ slot ∈ slots, slot.Valid memory)
    {candidates : List CString} {s : Scan} (hs : s.Valid memory candidates)
    (status : CachePatchStatus) :
    QueryAgrees memory (some ((status, s), slots))
    (some ((status, ⟨s.emitted, none, []⟩), [])) where
  answer := rfl
  slots r heq := by
    cases heq
    exact hslots
  lookup r heq l hl := by
    cases heq
    exact (hs l hl).1

/-- **The tables.** -/
theorem queryTables_agrees {opened : Opened} (hm : (memory.mapped view).Fits)
    {slots : List IndexSlot}
    (hslots : ∀ slot ∈ slots, slot.Valid memory) {candidates : List CString}
    (hnodup : candidates.Nodup) {s : Scan} (hs : s.Valid memory candidates) (target : PatchTarget) :
    QueryAgrees memory (queryTables target (memory.mapped view) opened candidates slots s)
      (queryTables target.direct (memory.mapped view) opened candidates []
      ⟨s.emitted, none, []⟩) := by
  rw [queryTables, queryTables]
  rcases patchVersion (memory.mapped view) opened.mappingOffset with _ | version
  · simp only [Option.bind_eq_bind, Option.bind_none]
    exact .failed
  simp only [Option.bind_eq_bind, Option.bind_some]
  by_cases hsize : (memory.mapped view).view.patchSize < 24
  · rw [if_pos hsize, if_pos hsize]
    exact .unchanged hslots hs _
  rw [if_neg hsize, if_neg hsize]
  rcases (memory.mapped view).read 8 _ with _ | patchImageCount
  · simp only [Option.bind_none]
    exact .failed
  simp only [Option.bind_some]
  by_cases hcount : patchImageCount ≠ opened.imagesCount
  · rw [if_pos hcount, if_pos hcount]
    exact .unchanged hslots hs _
  rw [if_neg hcount, if_neg hcount]
  by_cases hversion : version = 0 ∨ version > 4
  · rw [if_pos hversion, if_pos hversion]
    exact .unchanged hslots hs _
  rw [if_neg hversion, if_neg hversion]
  obtain ⟨hanswer, hleft⟩ := @parseVersion_agrees memory view version hm slots
    hslots candidates hnodup
    s hs target opened.importerIndex
  constructor
  · exact (endedOf_close _).trans ((answerOf_close hanswer).trans (endedOf_close _).symm)
  · intro r heq
    obtain ⟨⟨⟨status, s'⟩, slots'⟩, hparsed, heq⟩ := Option.bind_eq_some_iff.mp heq
    cases heq
    exact (hleft status s' slots' hparsed).1
  · intro r heq
    obtain ⟨⟨⟨status, s'⟩, slots'⟩, hparsed, heq⟩ := Option.bind_eq_some_iff.mp heq
    cases heq
    intro l hl
    exact close_lookup (hleft status s' slots' hparsed).2 hl

/-- `hk_dyld_cache_iterate_symbol_uses`, for a cache that might change: with no lookup and no
index. -/
def directAnswer (memory : Memory) (target : PatchTarget) (symbolName : CString)
    (convention : NameConvention) : Option Answer :=
  (iterateSymbolUses (memory.read target.cacheBase target.cacheSize) target.direct symbolName
    convention none [] []).map Prod.fst

/-- **A query** answers as one with no lookup and no index; a lookup of another symbol is left
alone. -/
theorem iterateSymbolUses_agrees {slots : List IndexSlot}
    (hslots : ∀ slot ∈ slots, slot.Valid memory)
    {lookup : Option Lookup} (hlookup : ∀ l, lookup = some l → l.Valid memory)
    (target : PatchTarget)
    (symbolName : CString) (convention : NameConvention) (heap : List Bool) :
    (iterateSymbolUses (memory.read target.cacheBase target.cacheSize) target symbolName convention
        lookup slots heap).map Prod.fst = directAnswer memory target symbolName convention ∧
    ∀ r, iterateSymbolUses (memory.read target.cacheBase target.cacheSize)
    target symbolName convention
        lookup slots heap = some r →
      (∀ slot ∈ r.2.2.1, slot.Valid memory) ∧ ∀ l, r.2.1 = some l → l.Valid memory := by
  have hunchanged : ∀ answer : Answer, ∀ r, some (answer, lookup, slots, heap) = some r →
      (∀ slot ∈ r.2.2.1, slot.Valid memory) ∧ ∀ l, r.2.1 = some l → l.Valid memory := by
    rintro answer r ⟨⟩
    exact ⟨hslots, hlookup⟩
  rw [directAnswer, iterateSymbolUses, iterateSymbolUses]
  obtain ⟨checked, hopened, hview⟩ := @openCache_safe target.toPatchImage
    (memory.read target.cacheBase target.cacheSize) (memory.length _ _)
  have hopened' : openCache target.direct.toPatchImage
      (memory.read target.cacheBase target.cacheSize) = some checked := hopened
  rw [hopened, hopened']
  simp only [Option.bind_eq_bind, Option.bind_some]
  cases checked with
  | error status => exact ⟨rfl, hunchanged _⟩
  | ok opened =>
    dsimp only
    cases hcandidates : symbolBuildCandidates symbolName convention with
    | none => exact ⟨rfl, hunchanged _⟩
    | some candidates =>
      dsimp only
      obtain ⟨hfits, hbase, hsize⟩ := hview opened rfl
      have hmapped : memory.mapped opened.view =
          ⟨memory.read target.cacheBase target.cacheSize, opened.view⟩ := by
        rw [Memory.mapped, hbase, hsize]
      rw [← hmapped] at hfits ⊢
      have hvalid : Scan.Valid memory candidates ⟨⟨[], false⟩,
          lookup.filter fun l ↦ l.convention = convention && l.symbol = symbolName, heap⟩ := by
        intro l hl
        obtain ⟨hl, hsame⟩ := Option.filter_eq_some_iff.mp hl
        rw [Bool.and_eq_true, decide_eq_true_eq, decide_eq_true_eq] at hsame
        rw [hsame.1, hsame.2]
        exact ⟨hlookup l hl, hcandidates⟩
      have hagrees := @queryTables_agrees memory opened.view opened hfits slots hslots candidates
        (symbolBuildCandidates_nodup hcandidates) _ hvalid target
      rw [Option.filter_none]
      constructor
      · have hanswer := hagrees.answer
        revert hanswer
        rcases queryTables target _ _ _ _ _ with _ | ⟨⟨status, s⟩, slots₁⟩ <;>
          rcases queryTables target.direct _ _ _ _ _ with _ | ⟨⟨status', s'⟩, slots₁'⟩
        · exact fun _ ↦ rfl
        · nofun
        · nofun
        · intro hanswer
          obtain ⟨rfl, hemitted⟩ : status = status' ∧ s.emitted = s'.emitted := by
            simpa [endedOf, answerOf] using hanswer
          simp [hemitted]
      · intro r heq
        obtain ⟨ended, hended, heq⟩ := Option.bind_eq_some_iff.mp heq
        cases heq
        refine ⟨hagrees.slots ended hended, fun l hl ↦ ?_⟩
        rcases hlast : ended.1.2.lookup with _ | l'
        · rw [hlast, Option.none_or] at hl
          exact hlookup l hl
        · rw [hlast, Option.some_or] at hl
          cases hl
          exact hagrees.lookup ended hended l hlast

end

/-! ## Histories -/

/-- What can be reached from a process that has not asked anything yet. -/
inductive Process.Reached (memory : Memory) : Process → Prop where
  | initial (heap : List Bool) : Process.Reached memory (Process.initial heap)
  | step {p p' : Process} {step : Step} {answer : Option Answer} (hp : Process.Reached memory p)
      (h : p.step memory step = some (answer, p')) : Process.Reached memory p'

/-- Everything that a process holds is in order. -/
structure Process.Valid (memory : Memory) (p : Process) : Prop where
  slots : ∀ slot ∈ p.slots, slot.Valid memory
  lookups : ∀ l ∈ p.lookups, l.Valid memory

section

variable {memory : Memory} {p p' : Process}

/-- The lookup of a query is one of the process. -/
theorem Process.Valid.lookup (hp : p.Valid memory) (i : Option Nat) (l : Lookup)
    (h : (i.bind fun i ↦ p.lookups[i]?) = some l) : l.Valid memory := by
  obtain ⟨i, -, hl⟩ := Option.bind_eq_some_iff.mp h
  exact hp.lookups l (List.mem_of_getElem? hl)

theorem Process.Valid.step (hp : p.Valid memory) {step : Step} {answer : Option Answer}
    (h : p.step memory step = some (answer, p')) : p'.Valid memory := by
  cases step with
  | create symbolName convention =>
    rw [Process.step] at h
    split at h
    · cases h
      exact ⟨hp.slots, hp.lookups⟩
    · cases h
      refine ⟨hp.slots, fun l hl ↦ ?_⟩
      rcases List.mem_append.mp hl with hl | hl
      · exact hp.lookups l hl
      · rw [List.mem_singleton.mp hl]
        exact nofun
  | destroy i =>
    cases h
    exact ⟨hp.slots, fun l hl ↦ hp.lookups l (List.mem_of_mem_eraseIdx hl)⟩
  | query target symbolName convention i =>
    obtain ⟨r, hr, h⟩ := Option.bind_eq_some_iff.mp h
    obtain ⟨hslots, hlookup⟩ := (iterateSymbolUses_agrees hp.slots (hp.lookup i) target symbolName
      convention p.heap).2 r hr
    cases h
    refine ⟨hslots, fun l hl ↦ ?_⟩
    dsimp only at hl
    split at hl
    · rename_i l' hl'
      rcases List.mem_or_eq_of_mem_set hl with hl | rfl
      · exact hp.lookups l hl
      · exact hlookup _ hl'
    · exact hp.lookups l hl

theorem Process.Reached.valid (h : p.Reached memory) : p.Valid memory := by
  induction h with
  | initial heap => exact ⟨nofun, nofun⟩
  | step _ h ih => exact ih.step h

/-- **The three ways agree**, whatever has been asked before: a query answers as if it were asked
with no lookup and no index. -/
theorem query_agrees (h : p.Reached memory) (target : PatchTarget) (symbolName : CString)
    (convention : NameConvention) (i : Option Nat) :
    (p.step memory (.query target symbolName convention i)).map Prod.fst =
      (directAnswer memory target symbolName convention).map some := by
  rw [← (iterateSymbolUses_agrees h.valid.slots (h.valid.lookup i) target symbolName convention
    p.heap).1, Process.step]
  rcases iterateSymbolUses _ _ _ _ _ _ _ with _ | _ <;> rfl

/-! ### A cache with one shared pointer -/

/-- A memory with some bytes where a range of their length is read; all other bytes are zero. -/
def Memory.holding (bytes : List Byte) : Memory where
  read _ size := if bytes.length = size then bytes else List.replicate size 0
  length _ size := by
    split
    · assumption
    · exact List.length_replicate

/-- The address and the count of a table. -/
def tableAt (address count : Nat) : List Byte := littleEndian 8 address ++ littleEndian 8 count

/-- Tables of version 3 at `0x10B0`: the only image exports `_a`, and one shared pointer is bound to
it. -/
def sharedPatches : List Byte := List.flatten [
  littleEndian 8 3, tableAt 0x1148 1, tableAt 0x1158 1, tableAt 0x10B0 0, tableAt 0x10B0 0,
  tableAt 0x10B0 0, tableAt 0x1184 3, tableAt 0x1160 1, tableAt 0x1168 1, tableAt 0x1174 1,
  littleEndian 4 0, littleEndian 4 0, littleEndian 4 0, littleEndian 4 1,
  littleEndian 8 0, littleEndian 4 0, littleEndian 4 1,
  littleEndian 4 0, littleEndian 4 0, littleEndian 4 1,
  littleEndian 8 168, littleEndian 8 0, [95, 97, 0]]

/-- A cache at `0x1000` with one image at `0x1040`, and the patch region that the header
declares. -/
def sharedCache (patchAddr patchSize : Nat) : List Byte := List.flatten [
  List.replicate 16 0, littleEndian 4 392, littleEndian 4 1, littleEndian 4 32, littleEndian 4 1,
  littleEndian 8 0x1040, List.replicate 16 0, littleEndian 4 64, List.replicate 4 0, [97],
  List.replicate 87 0, tableAt patchAddr patchSize, List.replicate 8 0, sharedPatches, [0],
  littleEndian 8 0x1000, List.replicate 24 0]

def sharedMemory : Memory := .holding (sharedCache 0x10B0 215)

/-- The image of the cache. -/
def sharedTarget : PatchTarget where
  cacheBase := 0x1000
  cacheSize := 424
  imageHeader := 0x1040
  imageHeaderSize := 32
  imageSlide := 0
  imagePath := [97]
  uuid := none
  includeSharedGot := true
  immutableMetadata := true

/-- The second of two queries with one lookup replays it, and finds what a direct scan finds. -/
theorem replayed_agrees : ∃ p : Process, p.Reached sharedMemory ∧
    p.lookups.map Lookup.complete = [true] ∧
    (p.step sharedMemory (.query sharedTarget [97] .c (some 0))).map Prod.fst =
      some (some ⟨.ok, [⟨0x10A8, .zero, 0, false, true⟩]⟩) := by
  have hcreated : (Process.initial []).step sharedMemory (.create [97] .c) =
    some (none, ⟨[], [⟨[97], .c, none, 0, [], 0, false, false⟩], []⟩) := rfl
  have hqueried : (Process.step sharedMemory ⟨[], [⟨[97], .c, none, 0, [], 0, false, false⟩], []⟩
      (.query sharedTarget.direct [97] .c (some 0))).map (·.2.lookups.map Lookup.complete) =
        some [true] := by decide +kernel
  have hanswer : directAnswer sharedMemory sharedTarget [97] .c =
    some ⟨.ok, [⟨0x10A8, .zero, 0, false, true⟩]⟩ := by decide +kernel
  obtain ⟨⟨answer, p⟩, hstep, hcomplete⟩ := Option.map_eq_some_iff.mp hqueried
  have hreached : p.Reached sharedMemory := .step (.step (.initial []) hcreated) hstep
  refine ⟨p, hreached, hcomplete, ?_⟩
  rw [query_agrees hreached, hanswer]
  rfl

/-! ## Reads -/

/-- A query that gets as far as the version of a patch region that is too short to have one.  The
size of the region is checked only after the version has been read. -/
def shortVersion (bytes : List Byte) (target : PatchImage) (symbolName : CString)
    (convention : NameConvention) : Bool :=
  match openCache target bytes, symbolBuildCandidates symbolName convention with
  | some (.ok opened), some _ => opened.mappingOffset > 384 && opened.view.patchSize < 4
  | _, _ => false

theorem patchVersion_eq_none {m : Mapped} (hm : m.Fits) (mappingOffset : Nat) :
    patchVersion m mappingOffset = none ↔ mappingOffset > 384 ∧ m.view.patchSize < 4 := by
  rw [patchVersion]
  split
  · rename_i hold
    exact ⟨nofun, fun h ↦ by omega⟩
  · rename_i hnew
    rw [Mapped.read]
    split
    · rename_i hinside
      have hlength := hm.length
      have hpatch := hm.patch
      refine ⟨fun hnone ↦ ?_, fun h ↦ by omega⟩
      exact absurd hnone (Safe.read (by omega)).ne_none
    · rename_i houtside
      exact ⟨fun _ ↦ by omega, fun _ ↦ rfl⟩

/-- Behind the version, a query with no lookup and no index reads inside the tables. -/
theorem queryTables_direct_safe {m : Mapped} (hm : m.Fits) {target : PatchTarget}
    (hheader : target.headerOffset + target.imageHeaderSize ≤ m.bytes.length) (opened : Opened)
    (candidates : List CString) (emitted : Emitted) :
    queryTables target.direct m opened candidates [] ⟨emitted, none, []⟩ = none ↔
      patchVersion m opened.mappingOffset = none := by
  rw [queryTables]
  rcases patchVersion m opened.mappingOffset with _ | version
  · exact ⟨fun _ ↦ rfl, fun _ ↦ rfl⟩
  refine ⟨fun hnone ↦ absurd hnone ?_, by simp⟩
  simp only [Option.bind_eq_bind, Option.bind_some]
  refine @Safe.ne_none _ _ (fun _ ↦ True) (.ite (fun _ ↦ .some trivial) fun hsize ↦ ?_)
  refine .bind (Mapped.read_safe hm (by split <;> omega) (by split <;> omega)) fun count _ ↦
    .ite (fun _ ↦ .some trivial) fun _ ↦ .ite (fun _ ↦ .some trivial) fun _ ↦ ?_
  suffices hparsed : parseVersion target.direct m version opened.importerIndex candidates []
      ⟨emitted, none, []⟩ ≠ none by
    obtain ⟨r, hr⟩ := Option.ne_none_iff_exists'.mp hparsed
    rw [hr]
    exact .some trivial
  rw [parseVersion]
  split
  · obtain ⟨⟨status, emitted'⟩, heq, -⟩ :=
      @parseV1_safe target.toPatchImage m hm hheader candidates emitted
    show (Scan.emit (parseV1 target.toPatchImage m candidates) ⟨emitted, none, []⟩ >>= _) ≠ none
    rw [Scan.emit, heq]
    simp
  · have hsafe := parseV2V4_direct_safe
      (q := ⟨target.toPatchImage, version, opened.importerIndex, candidates⟩) hm hheader emitted
    obtain ⟨r, hr⟩ := Option.ne_none_iff_exists'.mp hsafe
    show (parseV2V4 ⟨target.toPatchImage, version, opened.importerIndex, candidates⟩ m none
      ⟨emitted, none, []⟩ >>= _) ≠ none
    rw [hr]
    simp

theorem directAnswer_eq_none {target : PatchTarget} (hheader : target.HeaderInside)
    (symbolName : CString) (convention : NameConvention) :
    directAnswer memory target symbolName convention = none ↔
      shortVersion (memory.read target.cacheBase target.cacheSize) target.toPatchImage symbolName
        convention := by
  rw [directAnswer, Option.map_eq_none_iff, iterateSymbolUses, shortVersion]
  obtain ⟨checked, hopened, hview⟩ := @openCache_safe target.toPatchImage
    (memory.read target.cacheBase target.cacheSize) (memory.length _ _)
  have hopened' : openCache target.direct.toPatchImage
      (memory.read target.cacheBase target.cacheSize) = some checked := hopened
  rw [hopened, hopened']
  simp only [Option.bind_eq_bind, Option.bind_some]
  cases checked with
  | error status => exact ⟨nofun, nofun⟩
  | ok opened =>
    dsimp only
    cases hcandidates : symbolBuildCandidates symbolName convention with
    | none => exact ⟨nofun, nofun⟩
    | some candidates =>
      obtain ⟨hfits, -, hsize⟩ := hview opened rfl
      have hinside : target.headerOffset + target.imageHeaderSize ≤
          (memory.read target.cacheBase target.cacheSize).length := by
        rw [memory.length]
        exact hheader
      have htables := (queryTables_direct_safe hfits hinside opened candidates ⟨[], false⟩).trans
        (patchVersion_eq_none hfits opened.mappingOffset)
      rw [Option.filter_none, Bool.and_eq_true, decide_eq_true_eq, decide_eq_true_eq, ← htables]
      dsimp only
      rcases queryTables target.direct _ _ _ _ _ with _ | _
      · exact ⟨fun _ ↦ rfl, fun _ ↦ rfl⟩
      · exact ⟨nofun, nofun⟩

end

end HookKit.CachePatches
