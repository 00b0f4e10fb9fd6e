import HookKit.Resolvers.CachePatches

/-!
# What an answer says

A query of the patch tables that answers that there is no use, or that there are no tables, has
shown no site to its visitor.

* `Emitted.Counted` — `*found` is set with the first site that is emitted.
* `Ends` — a part of the scan that keeps a property and ends neither way.
* `iterateSymbolUses_empty` — the answers that come without sites.
-/

set_option autoImplicit false

namespace HookKit.CachePatches

/-- `*found` is set as soon as there is a site. -/
def Emitted.Counted (s : Emitted) : Prop := s.found = false → s.sites = []

variable {σ : Type} {P : σ → Prop}

/-- A part of the work keeps a property, and does not end with one of the two answers that are given
in the end. -/
def Ends (P : σ → Prop) (part : Option (Ended σ)) : Prop :=
  ∀ status s, part = some (status, s) → P s ∧ status ≠ .noMetadata ∧ status ≠ .notFound

namespace Ends

theorem some {status : CachePatchStatus} {s : σ} (h : P s)
    (hstatus : status ≠ .noMetadata ∧ status ≠ .notFound) :
    Ends P (Option.some (status, s)) := by
  rintro _ _ ⟨⟩
  exact ⟨h, hstatus⟩

theorem ok {s : σ} (h : P s) : Ends P (Option.some (.ok, s)) := .some h (by decide)

theorem malformed {s : σ} (h : P s) : Ends P (Option.some (.malformed, s)) := .some h (by decide)

theorem bind {α : Type} {read : Option α} {part : α → Option (Ended σ)}
    (h : ∀ a, Ends P (part a)) : Ends P (read >>= part) := by
  intro status s hs
  obtain ⟨a, -, hs⟩ := Option.bind_eq_some_iff.mp hs
  exact h a status s hs

theorem ite {p : Prop} [Decidable p] {part part' : Option (Ended σ)} (h : Ends P part)
    (h' : Ends P part') : Ends P (if p then part else part') := by
  split
  · exact h
  · exact h'

theorem andThen {part : Option (Ended σ)} {next : σ → Option (Ended σ)} (h : Ends P part)
    (h' : ∀ s, P s → Ends P (next s)) : Ends P (andThen part next) := by
  intro status s hs
  unfold CachePatches.andThen at hs
  split at hs
  · exact h' _ (h _ _ rfl).1 _ _ hs
  · exact h _ _ hs

theorem forEach {α : Type} {body : α → σ → Option (Ended σ)}
    (h : ∀ a s, P s → Ends P (body a s)) (l : List α) {s : σ} (hs : P s) :
    Ends P (forEach body l s) := by
  induction l generalizing s with
  | nil => exact .ok hs
  | cons a rest ih => exact .andThen (h a s hs) fun s' ↦ ih

end Ends

/-! ## Emitting -/

section Emitting

variable {q : Query} {m : Mapped} {t : TableV2} {s : Emitted}

theorem emitLocation_counted (target : PatchImage) (offset bits : Nat) (v4 sharedGot : Bool)
    (h : s.Counted) : Ends Emitted.Counted (emitLocation target m offset bits v4 sharedGot s) := by
  rw [emitLocation]
  refine .ite (.malformed h) (.bind fun belongs ↦ .ite (.malformed h) (.ok ?_))
  exact fun hfound ↦ Bool.noConfusion hfound

theorem parseV1_counted (target : PatchImage) (candidates : List CString) (h : s.Counted) :
    Ends Emitted.Counted (parseV1 target m candidates s) := by
  have hlocation : ∀ (t : TableV1) (loc : Nat) (s : Emitted), s.Counted →
      Ends Emitted.Counted (locationV1 target m t loc s) := by
    intro t loc s h
    refine .bind fun offset ↦ .bind fun belongs ↦ .ite (.ok h) (.bind fun bits ↦ ?_)
    exact emitLocation_counted target offset bits false false h
  have hexport : ∀ (t : TableV1) (exportIndex : Nat) (s : Emitted), s.Counted →
      Ends Emitted.Counted (exportV1 target m t candidates exportIndex s) := by
    intro t exportIndex s h
    refine .bind fun nameOffset ↦ .bind fun name ↦ ?_
    cases name with
    | none => exact .malformed h
    | some name =>
      exact .ite (.ok h) (.bind fun first ↦ .bind fun count ↦ .ite (.malformed h)
        (.forEach (fun k s ↦ hlocation t _ s) _ h))
  refine .bind fun t ↦ ?_
  cases t with
  | none => exact .malformed h
  | some t =>
    refine .forEach (fun i s h ↦ .bind fun first ↦ .bind fun count ↦ ?_) _ h
    exact .ite (.malformed h) (.forEach (fun j s ↦ hexport t _ s) _ h)

theorem emitClient_counted (globalExport c : Nat) (h : s.Counted) :
    Ends Emitted.Counted (emitClient q m t globalExport c s) := by
  have hlocation : ∀ (loc : Nat) (s : Emitted), s.Counted →
      Ends Emitted.Counted (clientLocation q m t loc s) := fun loc s h ↦
    .bind fun offset ↦ .ite (.malformed h)
      (.bind fun bits ↦ emitLocation_counted q.target _ bits _ false h)
  refine .bind fun first ↦ .bind fun count ↦ .ite (.malformed h)
    (.bind fun importer ↦ .ite (.ok h) (.forEach (fun ce s h ↦ ?_) _ h))
  exact .bind fun own ↦ .ite (.ok h) (.bind fun first ↦ .bind fun count ↦
    .ite (.malformed h) (.forEach (fun i s ↦ hlocation _ s) _ h))

theorem emitSharedGot_counted (defining globalExport : Nat) (h : s.Counted) :
    Ends Emitted.Counted (emitSharedGot q m t defining globalExport s) := by
  have hlocation : ∀ (loc : Nat) (s : Emitted), s.Counted →
      Ends Emitted.Counted (gotLocation q m t loc s) := fun loc s h ↦
    .bind fun offset ↦ .bind fun bits ↦ emitLocation_counted q.target offset bits _ true h
  refine .ite (.ok h) (.bind fun first ↦ .bind fun count ↦ .ite (.malformed h)
    (.forEach (fun ge s h ↦ ?_) _ h))
  exact .bind fun own ↦ .ite (.ok h) (.bind fun first ↦ .bind fun count ↦ .ite (.malformed h)
    (.ite (.some h (by decide)) (.forEach (fun i s ↦ hlocation _ s) _ h)))

theorem emitExportUses_counted (defining globalExport : Nat) (h : s.Counted) :
    Ends Emitted.Counted (emitExportUses q m t defining globalExport s) :=
  .bind fun _ ↦ .bind fun _ ↦ .ite (.malformed h)
    (.andThen (.forEach (fun _ _ ↦ emitClient_counted _ _) _ h)
      fun _ ↦ emitSharedGot_counted defining globalExport)

theorem useExport_counted (defining globalExport nameAndKind : Nat) (h : s.Counted) :
    Ends Emitted.Counted (useExport q m t defining globalExport nameAndKind s) :=
  .ite (.some h (by decide)) (emitExportUses_counted defining globalExport h)

theorem replayExports_counted (defining : Nat) (row : ImageRow) (matched : List ExportMatch)
    (e : Nat) (h : s.Counted) {status : CachePatchStatus} {s' : Emitted} {left : List ExportMatch}
    (heq : replayExports q m t defining row matched e s = some (status, s', left)) :
    s'.Counted ∧ status ≠ .noMetadata ∧ status ≠ .notFound := by
  induction matched generalizing e s with
  | nil =>
    cases heq
    exact ⟨h, by decide⟩
  | cons found rest ih =>
    rw [replayExports] at heq
    split at heq
    · cases heq
      exact ⟨h, by decide⟩
    · obtain ⟨nameAndKind, -, heq⟩ := Option.bind_eq_some_iff.mp heq
      obtain ⟨⟨used, s₁⟩, hused, heq⟩ := Option.bind_eq_some_iff.mp heq
      obtain ⟨hcounted, hstatus⟩ := useExport_counted _ _ _ h _ _ hused
      cases used with
      | ok => exact ih _ hcounted heq
      | _ =>
        cases heq
        exact ⟨hcounted, hstatus⟩

theorem replayDefinitions_counted (passes defining : Nat) (matched : List ExportMatch)
    (h : s.Counted) : Ends Emitted.Counted (replayDefinitions q m t passes defining matched s) := by
  induction passes generalizing defining matched s with
  | zero =>
    intro status s' heq
    cases heq
  | succ passes ih =>
    unfold replayDefinitions
    refine .ite (.ok h) ?_
    cases matched with
    | nil => exact .ok h
    | cons found rest =>
      refine .bind fun row ↦ .ite (.malformed h) fun status s' heq ↦ ?_
      obtain ⟨⟨replayed, s₁, left⟩, hreplayed, heq⟩ := Option.bind_eq_some_iff.mp heq
      obtain ⟨hcounted, hstatus⟩ := replayExports_counted _ _ _ _ h hreplayed
      cases replayed with
      | ok => exact ih _ _ hcounted _ _ heq
      | _ =>
        cases heq
        exact ⟨hcounted, hstatus⟩

end Emitting

/-! ## Scanning -/

section Scanning

variable {q : Query} {m : Mapped} {t : TableV2} {s : Scan}

/-- A scan has emitted what counts. -/
def Scan.Counted (s : Scan) : Prop := s.emitted.Counted

theorem emit_counted {emission : Emitted → Option (Ended Emitted)}
    (hemission : ∀ s, s.Counted → Ends Emitted.Counted (emission s)) (h : s.Counted) :
    Ends Scan.Counted (s.emit emission) := by
  intro status s' heq
  obtain ⟨⟨status', emitted⟩, hemitted, heq⟩ := Option.bind_eq_some_iff.mp heq
  cases heq
  exact hemission s.emitted h _ _ hemitted

theorem append_counted (defining exportIndex : Nat) (h : s.Counted) :
    (s.append defining exportIndex).Counted := by
  rw [Scan.append]
  split
  · exact h
  · exact h

theorem parseTables_counted (index : Option (List IndexEntry)) (h : s.Counted) :
    Ends Scan.Counted (parseTables q m t index s) := by
  unfold parseTables
  split
  · exact emit_counted (fun s hs ↦ replayDefinitions_counted _ _ _ hs) h
  · refine .bind fun merged ↦ .forEach (fun entry s h ↦ .bind fun nameAndKind ↦ ?_) _ h
    exact .ite (.some h (by decide)) (emit_counted
      (fun s hs ↦ emitExportUses_counted _ _ hs) (append_counted _ _ h))
  · refine .forEach (fun defining s h ↦ .bind fun row ↦ .ite (.malformed h) ?_) _ h
    refine .forEach (fun e s h ↦ .bind fun nameAndKind ↦ .bind fun name ↦ ?_) _ h
    cases name with
    | none => exact .malformed h
    | some name =>
      exact .ite (.ok h) (emit_counted (fun s hs ↦ useExport_counted _ _ _ hs)
        (append_counted _ _ h))

theorem parseV2V4_counted (index : Option (List IndexEntry)) (h : s.Counted) :
    Ends Scan.Counted (parseV2V4 q m index s) := by
  refine .bind fun t ↦ ?_
  cases t with
  | none => exact .malformed h
  | some t =>
    refine .ite (.malformed h) fun status s' heq ↦ ?_
    obtain ⟨⟨status', s₁⟩, hparsed, heq⟩ := Option.bind_eq_some_iff.mp heq
    obtain ⟨hcounted, hstatus⟩ := parseTables_counted index (by exact h) _ _ hparsed
    cases status' <;>
    · cases heq
      exact ⟨hcounted, hstatus⟩

/-- What the tables come to: the two answers come without sites. -/
theorem queryTables_empty {target : PatchTarget} {opened : Opened} {candidates : List CString}
    {slots slots' : List IndexSlot} {ended : Ended Scan} (h : s.Counted)
    (heq : queryTables target m opened candidates slots s = some (ended, slots')) :
    ended.1 ≠ .noMetadata ∧ (ended.1 = .notFound → ended.2.emitted.sites = []) := by
  obtain ⟨version, -, heq⟩ := Option.bind_eq_some_iff.mp heq
  split at heq
  · cases heq
    exact ⟨by simp, by simp⟩
  obtain ⟨count, -, heq⟩ := Option.bind_eq_some_iff.mp heq
  split at heq
  · cases heq
    exact ⟨by simp, by simp⟩
  split at heq
  · cases heq
    exact ⟨by simp, by simp⟩
  obtain ⟨⟨⟨status, s'⟩, slots₁⟩, hparsed, heq⟩ := Option.bind_eq_some_iff.mp heq
  cases heq
  have hends : s'.Counted ∧ status ≠ .noMetadata ∧ status ≠ .notFound := by
    rw [parseVersion] at hparsed
    split at hparsed
    · obtain ⟨ended, hended, hparsed⟩ := Option.bind_eq_some_iff.mp hparsed
      cases hparsed
      exact emit_counted (fun s hs ↦ parseV1_counted _ _ hs) h _ _ hended
    · obtain ⟨⟨index, slots₂, heap⟩, -, hparsed⟩ := Option.bind_eq_some_iff.mp hparsed
      obtain ⟨ended, hended, hparsed⟩ := Option.bind_eq_some_iff.mp hparsed
      cases hparsed
      exact parseV2V4_counted index (by exact h) _ _ hended
  obtain ⟨hcounted, hmetadata, hfound⟩ := hends
  unfold close
  cases status with
  | ok =>
    dsimp only
    split
    · exact ⟨by simp, by simp⟩
    · rename_i hnone
      exact ⟨by simp, fun _ ↦ hcounted (by simpa using hnone)⟩
  | noMetadata => exact absurd rfl hmetadata
  | notFound => exact absurd rfl hfound
  | _ => exact ⟨by simp, by simp⟩

end Scanning

/-- **Answers without sites**: that there is no use, and that there are no tables. -/
theorem iterateSymbolUses_empty {bytes : List Byte} {target : PatchTarget} {symbolName : CString}
    {convention : NameConvention} {lookup lookup' : Option Lookup} {slots slots' : List IndexSlot}
    {heap heap' : List Bool} {answer : Answer}
    (h : iterateSymbolUses bytes target symbolName convention lookup slots heap =
      some (answer, lookup', slots', heap'))
    (hstatus : answer.status = .noMetadata ∨ answer.status = .notFound) : answer.sites = [] := by
  obtain ⟨opened, -, h⟩ := Option.bind_eq_some_iff.mp h
  cases opened with
  | error status =>
    cases h
    rfl
  | ok opened =>
    dsimp only at h
    split at h
    · cases h
      rfl
    · obtain ⟨⟨⟨status, s⟩, slots₁⟩, hquery, h⟩ := Option.bind_eq_some_iff.mp h
      cases h
      obtain ⟨hmetadata, hfound⟩ := queryTables_empty (fun _ ↦ rfl) hquery
      exact hstatus.elim (fun heq ↦ absurd heq hmetadata) hfound

end HookKit.CachePatches
