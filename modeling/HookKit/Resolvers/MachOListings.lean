import HookKit.Lib.Listing
import HookKit.Resolvers.MachOWalk

/-!
# What the walks show

The load commands, the segments and the sections of an image as listings, and the walks of
`HKMachO.c` as visits of these listings.

* `commands`, `segments`, `sections` — what stands in an image, as far as it can be read.
* `walkCommands_replays` — a visitor that shows the items of every command shows the items of all.
* `iterateSegments_eq`, `iterateSections_eq` — the walks, for every visitor.
-/

set_option autoImplicit false

namespace HookKit.MachO

open LittleEndian Checked Listing

/-! ## The listings -/

/-- The load command at an offset, if there is one before `stop`. -/
def commandAt (image : List Byte) (stop offset : Nat) : Option LoadCommand :=
  if stop - offset < loadCommandSize then none
  else do
    let cmd ← readLE 4 image offset
    let cmdsize ← readLE 4 image (offset + 4)
    if cmdsize < loadCommandSize ∨ cmdsize % 8 ≠ 0 ∨ cmdsize > stop - offset then none
    else some ⟨cmd, offset, cmdsize⟩

/-- A row of load commands, the first at an offset; `left` counts them. -/
def commandsFrom (image : List Byte) (stop : Nat) : Nat → Nat → Listing LoadCommand
  | 0, _ => ⟨[], true⟩
  | left + 1, offset =>
    match commandAt image stop offset with
    | none => ⟨[], false⟩
    | some c =>
      let rest := commandsFrom image stop left (offset + c.cmdsize)
      ⟨c :: rest.items, rest.whole⟩

/-- The load commands of an image. -/
def commands (image : List Byte) : Listing LoadCommand :=
  match readHeader image with
  | some (.ok header) => commandsFrom image (headerSize + header.sizeofcmds) header.ncmds headerSize
  | _ => ⟨[], false⟩

/-- The segment that a command declares, if it is one that declares a segment. -/
def segmentItems (image : List Byte) (c : LoadCommand) : Option (List MachoSegment) :=
  if c.cmd ≠ lcSegment64 then some []
  else do
    let seg ← (readSegment image c.offset c.cmdsize).join
    some [seg]

/-- The sections of a segment command at an offset. -/
def sectionsAt (image : List Byte) (offset : Nat) : Nat → Nat → Option (List MachoSection)
  | 0, _ => some []
  | left + 1, i => do
    let sect ← readSection image (offset + segmentCommandSize + i * sectionSize)
    let rest ← sectionsAt image offset left (i + 1)
    some (sect :: rest)

/-- The sections that a command declares. -/
def sectionItems (image : List Byte) (c : LoadCommand) : Option (List MachoSection) :=
  if c.cmd ≠ lcSegment64 then some []
  else do
    let seg ← (readSegment image c.offset c.cmdsize).join
    if seg.sectionsFit then sectionsAt image c.offset seg.nsects 0 else none

/-- The segments of an image. -/
def segments (image : List Byte) : Listing MachoSegment :=
  (commands image).expand (segmentItems image)

/-- The sections of an image. -/
def sections (image : List Byte) : Listing MachoSection :=
  (commands image).expand (sectionItems image)

/-- Why an image that is not whole is refused. -/
def refusal (image : List Byte) : MachoStatus :=
  match readHeader image with
  | some (.error status) => status
  | _ => .malformed

theorem readHeader_error (image : List Byte) : Safe (readHeader image) fun r ↦
    ∀ status, r = .error status → status ≠ .ok := by
  have hpeek : Safe (peekHeader image) fun r ↦ ∀ status, r = .error status → status ≠ .ok := by
    rw [peekHeader]
    refine .ite (fun _ ↦ .some (by rintro _ ⟨⟩; decide)) fun hsize ↦ ?_
    refine .bind (.read (by omega)) fun magic _ ↦ ?_
    iterate 5 refine .ite (fun _ ↦ .some (by rintro _ ⟨⟩; decide)) fun hsize ↦ ?_
    rw [Nat.not_lt, headerSize] at hsize
    iterate 6 refine .bind (.read (by omega)) fun _ _ ↦ ?_
    exact .some (by simp)
  rw [readHeader]
  refine .bind hpeek fun r hr ↦ ?_
  cases r with
  | error status => exact .some fun status' heq ↦ hr status' (by cases heq; rfl)
  | ok header => exact .ite (fun _ ↦ .some (by rintro _ ⟨⟩; decide)) fun _ ↦ .some (by simp)

theorem refusal_ne_ok (image : List Byte) : refusal image ≠ .ok := by
  obtain ⟨r, heq, hr⟩ := readHeader_error image
  rw [refusal, heq]
  cases r with
  | error status => exact hr status rfl
  | ok header => exact nofun

/-! ## Walks that show items -/

variable {α σ τ : Type}

/-- What becomes of the status of a walk when its visitor may have noted a malformed command. -/
def settle : MachoStatus → Bool → MachoStatus
  | .ok, malformed => if malformed then .malformed else .ok
  | status, _ => status

/-- The status of a walk over a listing. -/
def walkStatus (stopped whole : Bool) (refused : MachoStatus) : MachoStatus :=
  if stopped || whole then .ok else refused

/-- A visitor of load commands that shows their items to another visitor.  `place n s` is its
context when item `n` comes next, `out` what its caller looks at in the end. -/
structure Replays (image : List Byte) (items : LoadCommand → Option (List α))
    (visit : σ → Nat → α → Bool × σ) (v : LcVisit τ) (place : Nat → σ → τ)
    (out : τ → Bool × σ) : Prop where
  /-- The context holds the context of the other visitor. -/
  out_place : ∀ n s, out (place n s) = (false, s)
  /-- A command without items is noted and stops the walk. -/
  broken : ∀ n s (c : LoadCommand), c.Inside image.length → items c = none →
    ∃ t, v (place n s) c.cmd c.offset c.cmdsize = some (false, t) ∧ out t = (true, s)
  /-- The walk stops with the other visitor. -/
  stop : ∀ n s (c : LoadCommand) own s', c.Inside image.length → items c = some own →
    visitAll visit n own s = (true, s') →
      ∃ t, v (place n s) c.cmd c.offset c.cmdsize = some (false, t) ∧ out t = (false, s')
  /-- Else the items of the next command come next. -/
  next : ∀ n s (c : LoadCommand) own s', c.Inside image.length → items c = some own →
    visitAll visit n own s = (false, s') →
      v (place n s) c.cmd c.offset c.cmdsize = some (true, place (n + own.length) s')

variable {image : List Byte} {items : LoadCommand → Option (List α)}
  {visit : σ → Nat → α → Bool × σ} {v : LcVisit τ} {place : Nat → σ → τ} {out : τ → Bool × σ}

/-- What the walk comes to: the visit of the listing, and its status. -/
def ReplayedBy (visit : σ → Nat → α → Bool × σ) (out : τ → Bool × σ)
    (l : Listing α) (n : Nat) (s : σ)
    (refused : MachoStatus) (r : MachoStatus × τ) : Prop :=
  settle r.1 (out r.2).1 = walkStatus (visitAll visit n l.items s).1 l.whole refused ∧
    (out r.2).2 = (visitAll visit n l.items s).2

theorem ReplayedBy.append_next {own : List α} {rest : Listing α} {n : Nat} {s s' : σ}
    {refused : MachoStatus} {r : MachoStatus × τ} (hvisit : visitAll visit n own s = (false, s'))
    (h : ReplayedBy visit out rest (n + own.length) s' refused r) :
    ReplayedBy visit out ⟨own ++ rest.items, rest.whole⟩ n s refused r := by
  rw [ReplayedBy, visitAll_append_next hvisit]
  exact h

theorem ReplayedBy.append_stop {own : List α} {rest : Listing α} {n : Nat} {s s' : σ}
    {refused : MachoStatus} {t : τ} (hvisit : visitAll visit n own s = (true, s'))
    (hout : out t = (false, s')) :
    ReplayedBy visit out ⟨own ++ rest.items, rest.whole⟩ n s refused (.ok, t) := by
  rw [ReplayedBy, visitAll_append_stop hvisit, hout]
  exact ⟨rfl, rfl⟩

/-- One step of the walk, by the command that stands there. -/
theorem walkCommands_succ {stop : Nat} (hstop : stop ≤ image.length) (left : Nat) {offset : Nat}
    (t : τ) : walkCommands image v stop (left + 1) offset t =
      match commandAt image stop offset with
      | none => some (.malformed, t)
      | some c => (v t c.cmd c.offset c.cmdsize).bind fun r ↦
        if r.1 then walkCommands image v stop left (offset + c.cmdsize) r.2 else some
        (.ok, r.2) := by
  rw [walkCommands, commandAt]
  by_cases hroom : stop - offset < loadCommandSize
  · rw [if_pos hroom, if_pos hroom]
  · rw [if_neg hroom, if_neg hroom]
    rw [loadCommandSize] at hroom
    obtain ⟨cmd, hcmd, -⟩ := @readLE_some 4 offset image (by omega)
    obtain ⟨cmdsize, hcmdsize, -⟩ := @readLE_some 4 (offset + 4) image (by omega)
    rw [hcmd, hcmdsize]
    simp only [Option.bind_eq_bind, Option.bind_some]
    by_cases hsize : cmdsize < loadCommandSize ∨ cmdsize % 8 ≠ 0
    · rw [if_pos hsize, if_pos (hsize.elim .inl fun h ↦ .inr (.inl h))]
    · by_cases hfits : cmdsize > stop - offset
      · rw [if_neg hsize, if_pos hfits, if_pos (.inr (.inr hfits))]
      · rw [if_neg hsize, if_neg hfits, if_neg (by tauto)]

theorem commandAt_inside {stop offset : Nat} {c : LoadCommand} (hoffset : headerSize ≤ offset)
    (h : commandAt image stop offset = some c) : c.offset = offset ∧ c.Inside stop := by
  rw [commandAt] at h
  split at h
  · cases h
  · rename_i hroom
    obtain ⟨cmd, -, h⟩ := Option.bind_eq_some_iff.mp h
    obtain ⟨cmdsize, -, h⟩ := Option.bind_eq_some_iff.mp h
    split at h
    · cases h
    · rename_i hsize
      cases h
      rw [not_or, not_or, not_not, Nat.not_lt] at hsize
      rw [loadCommandSize] at hroom
      exact ⟨rfl, hsize.1, hsize.2.1, hoffset, by dsimp only; omega⟩

/-- **The walk shows the items of all commands.** -/
theorem walkCommands_replays (h : Replays image items visit v place out) {stop : Nat}
    (hstop : stop ≤ image.length) (left : Nat) {offset : Nat} (hoffset : headerSize ≤ offset)
    (n : Nat) (s : σ) : Safe (walkCommands image v stop left offset (place n s))
      (ReplayedBy visit out ((commandsFrom image stop left offset).expand items) n s
        .malformed) := by
  induction left generalizing offset n s with
  | zero =>
    refine .some ⟨?_, ?_⟩ <;> rw [h.out_place]
    · rfl
    · rfl
  | succ left ih =>
    rw [walkCommands_succ hstop, commandsFrom]
    cases hat : commandAt image stop offset with
    | none =>
      refine .some ⟨rfl, ?_⟩
      rw [h.out_place]
      rfl
    | some c =>
      obtain ⟨rfl, hinside⟩ := commandAt_inside hoffset hat
      have hc : c.Inside image.length := { hinside with inside := hinside.inside.trans hstop }
      dsimp only
      rw [expand, expandList]
      cases hitems : items c with
      | none =>
        obtain ⟨t, ht, hout⟩ := h.broken n s c hc hitems
        rw [ht]
        refine .some ⟨?_, ?_⟩ <;> rw [hout]
        · rfl
        · rfl
      | some own =>
        dsimp only
        rcases hvisit : visitAll visit n own s with ⟨_ | _, s'⟩
        · rw [h.next n s c own s' hc hitems hvisit]
          have hsize := hinside.size
          exact (ih (by omega) (n + own.length) s').mono fun r ↦ .append_next hvisit
        · obtain ⟨t, ht, hout⟩ := h.stop n s c own s' hc hitems hvisit
          rw [ht]
          exact .some (.append_stop hvisit hout)

/-- The walk over all commands of an image. -/
theorem iterate_replays (h : Replays image items visit v place out) (n : Nat) (s : σ) :
    Safe (iterateLoadCommands image v (place n s))
      (ReplayedBy visit out ((commands image).expand items) n s (refusal image)) := by
  rw [iterateLoadCommands, commands, refusal]
  obtain ⟨r, heq, hr⟩ := readHeader_safe image
  rw [heq]
  cases r with
  | error status =>
    refine .some ⟨?_, ?_⟩ <;> rw [h.out_place]
    · cases status <;> rfl
    · rfl
  | ok header => exact walkCommands_replays h (hr header rfl) _ (Nat.le_refl _) n s

/-! ## Segments -/

/-- What the visitor does with the segment of a command. -/
theorem segmentsVisit_own {visit : σ → Nat → MachoSegment → Bool × σ} {n : Nat} {s : σ}
    {c : LoadCommand} {own : List MachoSegment} (hitems : segmentItems image c = some own) :
    segmentsVisit image visit ⟨s, n, false⟩ c.cmd c.offset c.cmdsize =
      let r := visitAll visit n own s
      some (!r.1, ⟨r.2, n + own.length, false⟩) := by
  rw [segmentItems] at hitems
  rw [segmentsVisit]
  split at hitems
  · rename_i hcmd
    cases hitems
    rw [if_pos hcmd]
    rfl
  · rename_i hcmd
    obtain ⟨seg, hseg, hown⟩ := Option.bind_eq_some_iff.mp hitems
    cases hown
    rw [if_neg hcmd, Option.join_eq_some_iff.mp hseg]
    rcases hone : visit s n seg with ⟨_ | _, t⟩
    · simp only [Option.bind_eq_bind, Option.bind_some, hone, visitAll_cons_stop hone]
      rfl
    · simp only [Option.bind_eq_bind, Option.bind_some, hone, visitAll_cons_next hone]
      rfl

theorem segmentsVisit_replays (image : List Byte) (visit : σ → Nat → MachoSegment → Bool × σ) :
    Replays image (segmentItems image) visit (segmentsVisit image visit) (fun n s ↦ ⟨s, n, false⟩)
      fun t ↦ (t.malformed, t.ctx) where
  out_place _ _ := rfl
  broken n s c hc hitems := by
    rw [segmentItems] at hitems
    rw [segmentsVisit]
    split at hitems
    · cases hitems
    · rename_i hcmd
      obtain ⟨seg?, hseg, -⟩ := readSegment_safe hc.inside
      rw [hseg] at hitems
      rw [if_neg hcmd, hseg]
      cases seg? with
      | none => exact ⟨_, rfl, rfl⟩
      | some seg => cases hitems
  stop n s c own s' hc hitems hvisit := by
    rw [segmentsVisit_own hitems, hvisit]
    exact ⟨_, rfl, rfl⟩
  next n s c own s' hc hitems hvisit := by
    rw [segmentsVisit_own hitems, hvisit]
    rfl

theorem readLE8_lt {position v : Nat} (h : readLE 8 image position = some v) : v < 2 ^ 64 :=
  (Safe.read (readLE_inside h (by decide))).of_eq h

/-- The numbers of a segment that is listed are 64-bit numbers. -/
theorem segments_lt {image : List Byte} {seg : MachoSegment} (h : seg ∈ (segments image).items) :
    seg.vmaddr < 2 ^ 64 ∧ seg.vmsize < 2 ^ 64 := by
  obtain ⟨c, own, -, hitems, hmem⟩ := mem_expand h
  rw [segmentItems] at hitems
  split at hitems
  · cases hitems
    cases hmem
  · obtain ⟨seg', hseg, hown⟩ := Option.bind_eq_some_iff.mp hitems
    cases hown
    cases List.mem_singleton.mp hmem
    have hread := Option.join_eq_some_iff.mp hseg
    rw [readSegment] at hread
    split at hread
    · cases hread
    · obtain ⟨segname, -, hread⟩ := Option.bind_eq_some_iff.mp hread
      obtain ⟨vmaddr, hvmaddr, hread⟩ := Option.bind_eq_some_iff.mp hread
      obtain ⟨vmsize, hvmsize, hread⟩ := Option.bind_eq_some_iff.mp hread
      iterate 6 obtain ⟨_, -, hread⟩ := Option.bind_eq_some_iff.mp hread
      cases hread
      exact ⟨readLE8_lt hvmaddr, readLE8_lt hvmsize⟩

/-- **Segments are shown as they are listed.** -/
theorem iterateSegments_eq (image : List Byte) (visit : σ → Nat → MachoSegment → Bool × σ) (s : σ) :
    iterateSegments image visit s =
      let r := visitAll visit 0 (segments image).items s
      some (walkStatus r.1 (segments image).whole (refusal image), r.2) := by
  rw [iterateSegments]
  obtain ⟨⟨status, t⟩, heq, hstatus, hctx⟩ :=
    iterate_replays (segmentsVisit_replays image visit) 0 s
  rw [heq]
  dsimp only at hstatus hctx ⊢
  rw [segments, ← hstatus, ← hctx]
  cases status <;> rfl

/-! ## Sections -/

/-- A visitor of sections as it is called for section `n`, counted from 0: an nlist can name only
255 sections. -/
def numbered (visit : σ → Nat → MachoSection → Bool × σ) (s : σ) (n : Nat) (sect : MachoSection) :
    Bool × σ :=
  if n + 1 > 0xff then (false, s) else visit s (n + 1) sect

/-- Only the first sections are visited. -/
theorem visitAll_numbered (visit : σ → Nat → MachoSection → Bool × σ) (n : Nat)
    (l : List MachoSection) (s : σ) :
    visitAll (numbered visit) n l s =
      let r := visitAll (fun s n sect ↦ visit s (n + 1) sect) n (l.take (255 - n)) s
      (r.1 || 255 - n < l.length, r.2) := by
  induction l generalizing n s with
  | nil =>
    rw [List.take_nil]
    rfl
  | cons sect rest ih =>
    by_cases hlimit : n + 1 > 0xff
    · rw [visitAll_cons_stop (by rw [numbered, if_pos hlimit]), show 255 - n = 0 by omega]
      simp [visitAll]
    · rw [show 255 - n = 255 - (n + 1) + 1 by omega, List.take_succ_cons]
      rcases hone : visit s (n + 1) sect with ⟨_ | _, t⟩
      · rw [visitAll_cons_stop (by rw [numbered, if_neg hlimit, hone]),
          @visitAll_cons_stop _ _ (fun s n sect ↦ visit s (n + 1) sect) n sect s t hone]
        rfl
      · rw [visitAll_cons_next (by rw [numbered, if_neg hlimit, hone]),
          @visitAll_cons_next _ _ (fun s n sect ↦ visit s (n + 1) sect) n sect s t hone, ih]
        simp only [List.length_cons, Nat.add_lt_add_iff_right]

theorem walkSections_eq {visit : σ → Nat → MachoSection → Bool × σ} {offset running : Nat}
    (left i : Nat) (s : σ) {own : List MachoSection}
    (h : sectionsAt image offset left i = some own) :
    walkSections image visit offset running left i s =
      some (visitAll (numbered visit) (running + i) own s) := by
  induction left generalizing i s own with
  | zero =>
    cases h
    rfl
  | succ left ih =>
    obtain ⟨sect, hsect, h⟩ := Option.bind_eq_some_iff.mp h
    obtain ⟨rest, hrest, h⟩ := Option.bind_eq_some_iff.mp h
    cases h
    rw [walkSections, hsect, Option.bind_eq_bind, Option.bind_some]
    by_cases hlimit : running + i + 1 > 0xff
    · have hstop : numbered visit s (running + i) sect = (false, s) := by
        rw [numbered, if_pos hlimit]
      rw [if_pos hlimit, visitAll_cons_stop hstop]
    · rw [if_neg hlimit]
      rcases hone : visit s (running + i + 1) sect with ⟨_ | _, t⟩
      · rw [visitAll_cons_stop (by rw [numbered, if_neg hlimit, hone])]
      · rw [visitAll_cons_next (by rw [numbered, if_neg hlimit, hone])]
        exact ih (i + 1) t hrest

theorem sectionsAt_safe {offset : Nat} (left i : Nat)
    (h : offset + segmentCommandSize + (i + left) * sectionSize ≤ image.length) :
    Safe (sectionsAt image offset left i) (·.length = left) := by
  induction left generalizing i with
  | zero => exact .some rfl
  | succ left ih =>
    rw [sectionsAt]
    have hstep : offset + segmentCommandSize + i * sectionSize + sectionSize ≤ image.length := by
      rw [show i + (left + 1) = i + 1 + left by omega, Nat.add_mul, Nat.add_mul] at h
      omega
    refine .bind (readSection_safe hstep) fun sect _ ↦ .bind (ih (i + 1) ?_) fun rest hrest ↦ ?_
    · rwa [show i + 1 + left = i + (left + 1) by omega]
    · exact .some (by rw [List.length_cons, hrest])

/-- The sections of a segment command that has room for them. -/
theorem sectionItems_fit {c : LoadCommand} {seg : MachoSegment} (hc : c.Inside image.length)
    (hcmd : ¬ c.cmd ≠ lcSegment64) (hseg : readSegment image c.offset c.cmdsize = some (some seg))
    (hfit : seg.sectionsFit) : ∃ own, sectionItems image c = some own ∧
      sectionsAt image c.offset seg.nsects 0 = some own ∧ own.length = seg.nsects := by
  have hsize := ((readSegment_safe hc.inside).of_eq hseg seg rfl).2.1
  have hinside := hc.inside
  have hroom := hfit
  simp only [MachoSegment.sectionsFit, decide_eq_true_eq] at hroom
  obtain ⟨own, hown, hlength⟩ := @sectionsAt_safe image c.offset seg.nsects 0
    (by rw [Nat.zero_add]; omega)
  refine ⟨own, ?_, hown, hlength⟩
  rw [sectionItems, if_neg hcmd, hseg]
  simp only [Option.join_some, Option.bind_eq_bind, Option.bind_some, if_pos hfit, hown]

/-- What the visitor does with the sections of a command; nobody looks at the count of a walk that
was stopped. -/
theorem sectionsVisit_own {visit : σ → Nat → MachoSection → Bool × σ} {n : Nat} {s : σ}
    {c : LoadCommand} {own : List MachoSection} (hc : c.Inside image.length)
    (hitems : sectionItems image c = some own) :
    ∃ running, sectionsVisit image visit ⟨s, n, false⟩ c.cmd c.offset c.cmdsize =
      (let r := visitAll (numbered visit) n own s
      some (!r.1, ⟨r.2, running, false⟩)) ∧
        ((visitAll (numbered visit) n own s).1 = false → running = n + own.length) := by
  rw [sectionsVisit]
  by_cases hcmd : c.cmd ≠ lcSegment64
  · rw [sectionItems, if_pos hcmd] at hitems
    cases hitems
    rw [if_pos hcmd]
    exact ⟨n, rfl, fun _ ↦ rfl⟩
  · rw [if_neg hcmd]
    obtain ⟨seg?, hseg, -⟩ := readSegment_safe hc.inside
    rw [sectionItems, if_neg hcmd, hseg] at hitems
    rw [hseg]
    cases seg? with
    | none => cases hitems
    | some seg =>
      simp only [Option.join_some, Option.bind_eq_bind, Option.bind_some] at hitems ⊢
      split at hitems
      · rename_i hfit
        obtain ⟨own', hitems', hown, hlength⟩ := sectionItems_fit hc hcmd hseg hfit
        cases hown.symm.trans hitems
        rw [hfit, walkSections_eq _ _ _ hown, Nat.add_zero, ← hlength]
        simp only [Bool.not_true, Bool.false_eq_true, if_false, Option.bind_some]
        generalize visitAll (numbered visit) n own s = r
        obtain ⟨_ | _, t⟩ := r
        · exact ⟨n + own.length, rfl, fun _ ↦ rfl⟩
        · exact ⟨n, rfl, by simp⟩
      · cases hitems

theorem sectionsVisit_replays (image : List Byte) (visit : σ → Nat → MachoSection → Bool × σ) :
    Replays image (sectionItems image) (numbered visit) (sectionsVisit image visit)
      (fun n s ↦ ⟨s, n, false⟩) fun t ↦ (t.malformed, t.ctx) where
  out_place _ _ := rfl
  broken n s c hc hitems := by
    rw [sectionsVisit]
    by_cases hcmd : c.cmd ≠ lcSegment64
    · rw [sectionItems, if_pos hcmd] at hitems
      cases hitems
    · obtain ⟨seg?, hseg, -⟩ := readSegment_safe hc.inside
      rw [if_neg hcmd, hseg]
      cases seg? with
      | none => exact ⟨_, rfl, rfl⟩
      | some seg =>
        by_cases hfit : seg.sectionsFit
        · obtain ⟨own, hown, -⟩ := sectionItems_fit hc hcmd hseg hfit
          rw [hown] at hitems
          cases hitems
        · simp only [Option.bind_eq_bind, Option.bind_some, hfit, Bool.not_false, if_true]
          exact ⟨_, rfl, rfl⟩
  stop n s c own s' hc hitems hvisit := by
    obtain ⟨running, heq, -⟩ := @sectionsVisit_own _ image visit n s c own hc hitems
    rw [heq, hvisit]
    exact ⟨_, rfl, rfl⟩
  next n s c own s' hc hitems hvisit := by
    obtain ⟨running, heq, hrunning⟩ := @sectionsVisit_own _ image visit n s c own hc hitems
    rw [heq, hrunning (by rw [hvisit]), hvisit]
    rfl

/-- **Sections are shown as they are listed**, up to the limit. -/
theorem iterateSections_eq (image : List Byte) (visit : σ → Nat → MachoSection → Bool × σ) (s : σ) :
    iterateSections image visit s =
      let r := visitAll (numbered visit) 0 (sections image).items s
      some (walkStatus r.1 (sections image).whole (refusal image), r.2) := by
  rw [iterateSections]
  obtain ⟨⟨status, t⟩, heq, hstatus, hctx⟩ :=
    iterate_replays (sectionsVisit_replays image visit) 0 s
  rw [heq]
  dsimp only at hstatus hctx ⊢
  rw [sections, ← hstatus, ← hctx]
  cases status <;> rfl

end HookKit.MachO
