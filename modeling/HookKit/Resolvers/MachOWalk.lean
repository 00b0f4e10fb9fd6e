import HookKit.Lib.Checked
import HookKit.Resolvers.MachO

/-!
# The walk stays inside the buffer

* `iterate_spec` — the walk over the load commands of any buffer ends, the commands it visits stand
  one behind the other, and they all lie inside the buffer.
* `Visited.invariant` — the rule for what a visitor collects.
* `findSymtabView_safe`, `findSegment_safe`, `iterateSections_safe`, … — no finder reads outside the
  buffer, and what it finds lies inside.
* `robustWalk` — all of it together.
-/

set_option autoImplicit false

namespace HookKit.MachO

open LittleEndian Checked

/-! ## Load commands -/

/-- A load command as the walk reports it. -/
structure LoadCommand where
  cmd : Nat
  offset : Nat
  cmdsize : Nat

/-- A command that can be read: it lies between the header and `stop`. -/
structure LoadCommand.Inside (c : LoadCommand) (stop : Nat) : Prop where
  size : loadCommandSize ≤ c.cmdsize
  aligned : c.cmdsize % 8 = 0
  start : headerSize ≤ c.offset
  inside : c.offset + c.cmdsize ≤ stop

/-- The commands stand one behind the other, the first at `start`; the last ends at `stop`. -/
def Tiles : Nat → List LoadCommand → Nat → Prop
  | start, [], stop => start = stop
  | start, c :: rest, stop => c.offset = start ∧ Tiles (start + c.cmdsize) rest stop

variable {σ : Type}

/-- The visitor is shown the commands in order; when it asks to stop there are no more. -/
inductive Visited (visit : LcVisit σ) : List LoadCommand → σ → σ → Prop where
  | nil (s : σ) : Visited visit [] s s
  | stop {c : LoadCommand} {s s' : σ} (h : visit s c.cmd c.offset c.cmdsize = some (false, s')) :
    Visited visit [c] s s'
  | next {c : LoadCommand} {rest : List LoadCommand} {s s' s'' : σ}
      (h : visit s c.cmd c.offset c.cmdsize = some (true, s')) (hrest : Visited visit rest s' s'') :
    Visited visit (c :: rest) s s''

/-- **The rule for visitors.**  What every visit keeps holds in the end. -/
theorem Visited.invariant {visit : LcVisit σ} {cmds : List LoadCommand} {s s' : σ}
    (h : Visited visit cmds s s') (I : σ → Prop)
    (hvisit : ∀ c ∈ cmds, ∀ s more s', I s →
      visit s c.cmd c.offset c.cmdsize = some (more, s') → I s') (hs : I s) : I s' := by
  induction h with
  | nil => exact hs
  | stop h => exact hvisit _ List.mem_cons_self _ _ _ hs h
  | next h _ ih =>
    exact ih (fun c hc ↦ hvisit c (List.mem_cons_of_mem _ hc))
      (hvisit _ List.mem_cons_self _ _ _ hs h)

/-- What the walk visits in a buffer: nothing, when the header is refused, and else a row of
commands that starts behind the header. -/
def WalkedOver (image : List Byte) (cmds : List LoadCommand) : Prop :=
  cmds = [] ∨ ∃ header, readHeader image = some (.ok header) ∧
    headerSize + header.sizeofcmds ≤ image.length ∧ cmds.length ≤ header.ncmds ∧
    (∃ reached, reached ≤ headerSize + header.sizeofcmds ∧ Tiles headerSize cmds reached) ∧
    ∀ c ∈ cmds, c.Inside (headerSize + header.sizeofcmds)

theorem WalkedOver.inside {image : List Byte} {cmds : List LoadCommand} (h : WalkedOver image cmds)
    {c : LoadCommand} (hc : c ∈ cmds) : c.Inside image.length := by
  rcases h with rfl | ⟨header, -, hfits, -, -, hall⟩
  · cases hc
  · have hinside := hall c hc
    exact { hinside with inside := hinside.inside.trans hfits }

/-- No command inside the buffer makes the visitor read outside. -/
def VisitorSafe (image : List Byte) (visit : LcVisit σ) : Prop :=
  ∀ s (c : LoadCommand), c.Inside image.length →
    Safe (visit s c.cmd c.offset c.cmdsize) fun _ ↦ True

/-! ## The walk -/

theorem peekHeader_safe (image : List Byte) :
    Safe (peekHeader image) fun r ↦ ∀ header, r = .ok header → headerSize ≤ image.length := by
  rw [peekHeader]
  refine .ite (fun _ ↦ .some nofun) fun hsize ↦ ?_
  refine .bind (.read (by omega)) fun magic _ ↦ ?_
  refine .ite (fun _ ↦ .some nofun) fun _ ↦ .ite (fun _ ↦ .some nofun) fun _ ↦
    .ite (fun _ ↦ .some nofun) fun _ ↦ .ite (fun _ ↦ .some nofun) fun _ ↦
    .ite (fun _ ↦ .some nofun) fun hheader ↦ ?_
  rw [Nat.not_lt, headerSize] at hheader
  iterate 6 refine .bind (.read (by omega)) fun _ _ ↦ ?_
  exact .some fun _ _ ↦ hheader

theorem readHeader_safe (image : List Byte) :
    Safe (readHeader image) fun r ↦ ∀ header, r = .ok header →
      headerSize + header.sizeofcmds ≤ image.length := by
  rw [readHeader]
  refine .bind (peekHeader_safe image) fun r hr ↦ ?_
  cases r with
  | error status => exact .some nofun
  | ok header =>
    have hsize := hr header rfl
    refine .ite (fun _ ↦ .some nofun) fun hfits ↦ .some fun h heq ↦ ?_
    cases heq
    omega

theorem walkCommands_spec {image : List Byte} {visit : LcVisit σ} (hsafe : VisitorSafe image visit)
    {stop : Nat} (hstop : stop ≤ image.length) (left offset : Nat) (hstart : headerSize ≤ offset)
    (hoffset : offset ≤ stop) (s : σ) :
    Safe (walkCommands image visit stop left offset s) fun r ↦ ∃ cmds, Visited visit cmds s r.2 ∧
      cmds.length ≤ left ∧ (∃ reached, reached ≤ stop ∧ Tiles offset cmds reached) ∧
      ∀ c ∈ cmds, c.Inside stop := by
  -- nothing is visited when the walk ends here
  have hnothing : ∀ (count : Nat) (status : MachoStatus), Safe (some (status, s)) fun r ↦
      ∃ cmds, Visited visit cmds s r.2 ∧ cmds.length ≤ count ∧
        (∃ reached, reached ≤ stop ∧ Tiles offset cmds reached) ∧ ∀ c ∈ cmds, c.Inside stop :=
    fun count status ↦ .some ⟨[], .nil s, Nat.zero_le _, ⟨offset, hoffset, rfl⟩, nofun⟩
  induction left generalizing offset s with
  | zero => exact hnothing 0 .ok
  | succ left ih =>
    rw [walkCommands]
    refine .ite (fun _ ↦ hnothing _ _) fun hroom ↦ ?_
    rw [loadCommandSize] at hroom
    refine .bind (.read (by omega)) fun cmd _ ↦ .bind (.read (by omega)) fun cmdsize _ ↦ ?_
    refine .ite (fun _ ↦ hnothing _ _) fun hsize ↦ .ite (fun _ ↦ hnothing _ _) fun hfits ↦ ?_
    rw [not_or, not_not, Nat.not_lt] at hsize
    have hinside : (LoadCommand.mk cmd offset cmdsize).Inside stop :=
      ⟨hsize.1, hsize.2, hstart, by dsimp only; omega⟩
    have hvisit :=
      hsafe s ⟨cmd, offset, cmdsize⟩ { hinside with inside := hinside.inside.trans hstop }
    obtain ⟨⟨more, s'⟩, heq, -⟩ := hvisit
    dsimp only at heq
    rw [heq]
    show Safe (if more = true then walkCommands image visit stop left (offset + cmdsize) s' else _)
        _
    cases more with
    | false =>
      exact .some ⟨[⟨cmd, offset, cmdsize⟩], .stop heq, Nat.succ_le_succ (Nat.zero_le _),
        ⟨offset + cmdsize, hinside.inside, rfl, rfl⟩, fun c hc ↦ List.mem_singleton.mp hc ▸ hinside⟩
    | true =>
      have hnext := ih (offset + cmdsize) (by omega) hinside.inside s' fun count status ↦
        .some ⟨[], .nil s', Nat.zero_le _, ⟨_, hinside.inside, rfl⟩, nofun⟩
      refine hnext.mono fun r ⟨cmds, hvisited, hcount, ⟨reached, hreached, htiles⟩, hall⟩ ↦ ?_
      refine ⟨⟨cmd, offset, cmdsize⟩ :: cmds, .next heq hvisited, Nat.succ_le_succ hcount,
        ⟨reached, hreached, rfl, htiles⟩, fun c hc ↦ ?_⟩
      rcases List.mem_cons.mp hc with rfl | hc
      · exact hinside
      · exact hall c hc

/-- **The walk.** -/
theorem iterate_spec {image : List Byte} {visit : LcVisit σ} (hsafe : VisitorSafe image visit)
    (s : σ) : Safe (iterateLoadCommands image visit s) fun r ↦
      ∃ cmds, Visited visit cmds s r.2 ∧ WalkedOver image cmds := by
  rw [iterateLoadCommands]
  obtain ⟨r, heq, hr⟩ := readHeader_safe image
  rw [heq]
  cases r with
  | error status => exact .some ⟨[], .nil s, .inl rfl⟩
  | ok header =>
    have hfits := hr header rfl
    have hwalk := walkCommands_spec hsafe hfits header.ncmds headerSize (Nat.le_refl _)
      (Nat.le_add_right _ _) s
    exact hwalk.mono fun r ⟨cmds, hvisited, hcount, htiles, hall⟩ ↦
      ⟨cmds, hvisited, .inr ⟨header, heq, hfits, hcount, htiles, hall⟩⟩

/-- What every visit of a command inside the buffer keeps holds when the walk is over. -/
theorem iterate_invariant {image : List Byte} {visit : LcVisit σ} (I : σ → Prop)
    (hvisit : ∀ s (c : LoadCommand), c.Inside image.length →
      Safe (visit s c.cmd c.offset c.cmdsize) fun r ↦ I s → I r.2) {s : σ} (hs : I s) :
    Safe (iterateLoadCommands image visit s) fun r ↦ I r.2 := by
  refine (iterate_spec (fun s c hc ↦ (hvisit s c hc).mono fun _ _ ↦ trivial) s).mono
    fun r ⟨cmds, hvisited, hwalked⟩ ↦ ?_
  exact hvisited.invariant I (fun c hc s more s' hI heq ↦
    (hvisit s c (hwalked.inside hc)).of_eq heq hI) hs

/-! ## One command -/

/-- The command at an offset, with a size, lies inside the buffer. -/
def RangeInside (image : List Byte) (offset size : Nat) : Prop := offset + size ≤ image.length

theorem findLoadCommand_safe (image : List Byte) (cmd : Nat) :
    Safe (findLoadCommand image cmd) fun r ↦ ∀ found, r = .ok found →
      RangeInside image found.1 found.2 := by
  rw [findLoadCommand]
  have hwalk : Safe (iterateLoadCommands image (findLcVisit cmd) none) fun r ↦
      ∀ found, r.2 = some found → RangeInside image found.1 found.2 := by
    refine iterate_invariant (fun s : Option (Nat × Nat) ↦
      ∀ found, s = some found → RangeInside image found.1 found.2) (fun s c hc ↦ ?_) nofun
    rw [findLcVisit]
    refine .ite (fun _ ↦ .some fun _ found heq ↦ ?_) fun _ ↦ .some id
    cases heq
    exact hc.inside
  refine .bind hwalk fun r hr ↦ ?_
  obtain ⟨status, found?⟩ := r
  cases status with
  | ok =>
    cases found? with
    | none => exact .some nofun
    | some found => exact .some fun found' heq ↦ hr found' (by cases heq; rfl)
  | _ => exact .some nofun

theorem readSymtab_safe (image : List Byte) : Safe (readSymtab image) fun _ ↦ True := by
  rw [readSymtab]
  refine .bind (findLoadCommand_safe image lcSymtab) fun r hr ↦ ?_
  cases r with
  | error status => exact .some trivial
  | ok found =>
    obtain ⟨offset, cmdsize⟩ := found
    have hinside := hr _ rfl
    rw [RangeInside] at hinside
    refine .ite (fun _ ↦ .some trivial) fun hsize ↦ ?_
    rw [symtabCommandSize] at hsize
    iterate 4 refine .bind (.read (by omega)) fun _ _ ↦ ?_
    exact .some trivial

/-- The tables of a view lie inside the buffer at `base`. -/
def SymbolTableView.Inside (view : SymbolTableView) (base : BitVec 64) (image : List Byte) : Prop :=
  (∃ symoff, view.nlist = base + BitVec.ofNat 64 symoff ∧
      RangeInside image symoff (view.nlistCount * nlistSize)) ∧
    ∃ stroff, view.strings = base + BitVec.ofNat 64 stroff ∧
      RangeInside image stroff view.stringsSize

theorem findSymtabView_safe (base : BitVec 64) (image : List Byte) :
    Safe (findSymtabView base image) fun r ↦ ∀ view, r = .ok view → view.Inside base image := by
  rw [findSymtabView]
  refine .bind (readSymtab_safe image) fun r _ ↦ ?_
  cases r with
  | error status => exact .some nofun
  | ok r =>
    refine .ite (fun _ ↦ .some nofun) fun hsym ↦ .ite (fun _ ↦ .some nofun) fun hstr ↦
      .ite (fun _ ↦ .some nofun) fun _ ↦ .some fun view heq ↦ ?_
    cases heq
    refine ⟨⟨r.symoff, rfl, ?_⟩, ⟨r.stroff, rfl, ?_⟩⟩ <;> rw [RangeInside] <;> dsimp only <;> omega

/-! ## Segments and sections -/

theorem readSegment_safe {image : List Byte} {offset cmdsize : Nat}
    (h : offset + cmdsize ≤ image.length) :
    Safe (readSegment image offset cmdsize) fun r ↦ ∀ seg, r = some seg →
      seg.commandOffset = offset ∧ seg.cmdsize = cmdsize ∧ segmentCommandSize ≤ cmdsize := by
  rw [readSegment]
  refine .ite (fun _ ↦ .some nofun) fun hsize ↦ ?_
  rw [Nat.not_lt] at hsize
  have hlong : 72 ≤ cmdsize := hsize
  refine .bind (.copy (by omega)) fun _ _ ↦ ?_
  iterate 8 refine .bind (.read (by omega)) fun _ _ ↦ ?_
  refine .some fun seg heq ↦ ?_
  cases heq
  exact ⟨rfl, rfl, hsize⟩

/-- The command of a segment lies inside the buffer. -/
def MachoSegment.Inside (seg : MachoSegment) (image : List Byte) : Prop :=
  RangeInside image seg.commandOffset seg.cmdsize

/-- What every segment inside the buffer keeps holds when all have been visited. -/
theorem iterateSegments_safe {image : List Byte} {visit : σ → Nat → MachoSegment → Bool × σ}
    (I : σ → Prop) (hvisit : ∀ s n seg, seg.Inside image → I s → I (visit s n seg).2) {s : σ}
    (hs : I s) : Safe (iterateSegments image visit s) fun r ↦ I r.2 := by
  rw [iterateSegments]
  have hwalk : Safe (iterateLoadCommands image (segmentsVisit image visit) ⟨s, 0, false⟩)
      fun r ↦ I r.2.ctx := by
    refine iterate_invariant (fun s : SegmentsCtx σ ↦ I s.ctx) (fun s c hc ↦ ?_) hs
    rw [segmentsVisit]
    refine .ite (fun _ ↦ .some id) fun _ ↦ ?_
    refine .bind (readSegment_safe hc.inside) fun seg? hseg ↦ ?_
    cases seg? with
    | none => exact .some id
    | some seg =>
      obtain ⟨hoffset, hcmdsize, -⟩ := hseg seg rfl
      refine .some (hvisit s.ctx s.index seg ?_)
      rw [MachoSegment.Inside, RangeInside, hoffset, hcmdsize]
      exact hc.inside
  refine .bind hwalk fun r hr ↦ ?_
  obtain ⟨status, s'⟩ := r
  cases status <;> exact .some hr

theorem findSegment_safe (image segname : List Byte) :
    Safe (findSegment image segname) fun r ↦ ∀ seg, r = .ok seg → seg.Inside image := by
  rw [findSegment]
  have hwalk : Safe (iterateLoadCommands image (findSegmentVisit image segname) (none, false))
      fun r ↦ ∀ seg, r.2.1 = some seg → seg.Inside image := by
    refine iterate_invariant (fun f : FindSegmentCtx ↦ ∀ seg, f.1 = some seg → seg.Inside image)
      (fun f c hc ↦ ?_) nofun
    rw [findSegmentVisit]
    refine .ite (fun _ ↦ .some id) fun _ ↦ ?_
    refine .bind (readSegment_safe hc.inside) fun seg? hseg ↦ ?_
    cases seg? with
    | none => exact .some id
    | some seg =>
      refine .ite (fun _ ↦ .some fun _ seg' heq ↦ ?_) fun _ ↦ .some id
      cases heq
      obtain ⟨hoffset, hcmdsize, -⟩ := hseg seg rfl
      rw [MachoSegment.Inside, RangeInside, hoffset, hcmdsize]
      exact hc.inside
  refine .bind hwalk fun r hr ↦ ?_
  obtain ⟨status, seg?, malformed⟩ := r
  cases status with
  | ok =>
    cases malformed with
    | true => exact .some nofun
    | false =>
      cases seg? with
      | none => exact .some nofun
      | some seg => exact .some fun seg' heq ↦ hr seg' (by cases heq; rfl)
  | _ => exact .some nofun

/-- A section is read from inside the buffer. -/
def MachoSection.ReadFrom (sect : MachoSection) (image : List Byte) : Prop :=
  ∃ offset, RangeInside image offset sectionSize ∧ readSection image offset = some sect

theorem readSection_safe {image : List Byte} {offset : Nat}
    (h : RangeInside image offset sectionSize) :
    Safe (readSection image offset) fun sect ↦ sect.ReadFrom image := by
  have hread : Safe (readSection image offset) fun _ ↦ True := by
    rw [RangeInside, sectionSize] at h
    rw [readSection]
    iterate 2 refine .bind (.copy (by omega)) fun _ _ ↦ ?_
    iterate 6 refine .bind (.read (by omega)) fun _ _ ↦ ?_
    exact .some trivial
  obtain ⟨sect, heq, -⟩ := hread
  exact ⟨sect, heq, offset, h, heq⟩

theorem walkSections_safe {image : List Byte} {visit : σ → Nat → MachoSection → Bool × σ}
    (I : σ → Prop) (hvisit : ∀ s n sect, sect.ReadFrom image → I s → I (visit s n sect).2)
    {offset running : Nat} (left i : Nat)
    (hfits : offset + segmentCommandSize + (i + left) * sectionSize ≤ image.length) {s : σ}
    (hs : I s) : Safe (walkSections image visit offset running left i s) fun r ↦ I r.2 := by
  induction left generalizing i s with
  | zero => exact .some hs
  | succ left ih =>
    have hstep : offset + segmentCommandSize + i * sectionSize + sectionSize ≤ image.length := by
      rw [show i + (left + 1) = i + 1 + left by omega, Nat.add_mul, Nat.add_mul] at hfits
      omega
    rw [walkSections]
    refine .bind (readSection_safe hstep) fun sect hsect ↦ .ite (fun _ ↦ .some hs) fun _ ↦ ?_
    have hkept := hvisit s (running + i + 1) sect hsect hs
    generalize visit s (running + i + 1) sect = visited at hkept ⊢
    obtain ⟨more, s'⟩ := visited
    cases more with
    | false => exact .some hkept
    | true =>
      refine ih (i + 1) ?_ hkept
      rwa [show i + 1 + left = i + (left + 1) by omega]

/-- What every section read from inside the buffer keeps holds when all have been visited. -/
theorem iterateSections_safe {image : List Byte} {visit : σ → Nat → MachoSection → Bool × σ}
    (I : σ → Prop) (hvisit : ∀ s n sect, sect.ReadFrom image → I s → I (visit s n sect).2) {s : σ}
    (hs : I s) : Safe (iterateSections image visit s) fun r ↦ I r.2 := by
  rw [iterateSections]
  have hwalk : Safe (iterateLoadCommands image (sectionsVisit image visit) ⟨s, 0, false⟩)
      fun r ↦ I r.2.ctx := by
    refine iterate_invariant (fun s : SectionsCtx σ ↦ I s.ctx) (fun s c hc ↦ ?_) hs
    rw [sectionsVisit]
    refine .ite (fun _ ↦ .some id) fun _ ↦ ?_
    refine .bind (readSegment_safe hc.inside) fun seg? hseg ↦ ?_
    cases seg? with
    | none => exact .some id
    | some seg =>
      obtain ⟨-, hcmdsize, -⟩ := hseg seg rfl
      refine .ite (fun _ ↦ .some id) fun hfit ↦ ?_
      simp only [MachoSegment.sectionsFit, Bool.not_eq_true', decide_eq_false_iff_not,
        not_not] at hfit
      have hinside := hc.inside
      by_cases hI : I s.ctx
      · have hsections := @walkSections_safe _ image visit I hvisit c.offset s.running seg.nsects 0
          (by rw [Nat.zero_add]; omega) _ hI
        refine .bind hsections fun r hr ↦ ?_
        obtain ⟨stopped, ctx⟩ := r
        cases stopped <;> exact .some fun _ ↦ hr
      · have hsections := @walkSections_safe _ image visit (fun _ ↦ True) (fun _ _ _ _ _ ↦ trivial)
          c.offset s.running seg.nsects 0 (by rw [Nat.zero_add]; omega) s.ctx trivial
        refine .bind hsections fun r _ ↦ ?_
        obtain ⟨stopped, ctx⟩ := r
        cases stopped <;> exact .some fun h ↦ absurd h hI
  refine .bind hwalk fun r hr ↦ ?_
  obtain ⟨status, s'⟩ := r
  cases status <;> exact .some hr

theorem sectionInfo_safe (image : List Byte) (nSect : Nat) :
    Safe (sectionInfo image nSect) fun r ↦ ∀ sect, r = .ok sect → sect.ReadFrom image := by
  rw [sectionInfo]
  refine .ite (fun _ ↦ .some nofun) fun _ ↦ ?_
  have hwalk := @iterateSections_safe _ image (sectionLookupVisit nSect)
    (fun found ↦ ∀ sect, found = some sect → sect.ReadFrom image) (fun s n sect hsect hs ↦ by
      rw [sectionLookupVisit]
      split
      · intro sect' heq
        cases heq
        exact hsect
      · exact hs) none nofun
  refine .bind hwalk fun r hr ↦ ?_
  obtain ⟨status, found⟩ := r
  cases status with
  | ok =>
    cases found with
    | none => exact .some nofun
    | some sect => exact .some fun sect' heq ↦ hr sect' (by cases heq; rfl)
  | _ => exact .some nofun

/-! ## Declared ranges -/

theorem takeRange_safe {image : List Byte} {size place : Nat} (hplace : place + 8 ≤ size)
    (more : Bool) (s : DataCtx) {offset cmdsize : Nat} (h : offset + cmdsize ≤ image.length) :
    Safe (takeRange image size place more s offset cmdsize) fun _ ↦ True := by
  rw [takeRange]
  refine .ite (fun _ ↦ .some trivial) fun hsize ↦ ?_
  iterate 2 refine .bind (.read (by omega)) fun _ _ ↦ ?_
  exact .some trivial

theorem exportTrieVisit_safe (image : List Byte) : VisitorSafe image (exportTrieVisit image) := by
  intro s c hc
  rw [exportTrieVisit]
  refine .ite (fun _ ↦ takeRange_safe (by decide) _ _ hc.inside) fun _ ↦
    .ite (fun _ ↦ takeRange_safe (by decide) _ _ hc.inside) fun _ ↦ .some trivial

theorem linkeditDataVisit_safe (image : List Byte) :
    VisitorSafe image (linkeditDataVisit image) := by
  intro s c hc
  rw [linkeditDataVisit]
  exact .ite (fun _ ↦ .some trivial) fun _ ↦ takeRange_safe (by decide) _ _ hc.inside

theorem dysymtabVisit_safe (image : List Byte) : VisitorSafe image (dysymtabVisit image) := by
  intro s c hc
  rw [dysymtabVisit]
  exact .ite (fun _ ↦ .some trivial) fun _ ↦ takeRange_safe (by decide) _ _ hc.inside

theorem declaredRange_safe {image : List Byte} {visit : LcVisit DataCtx}
    (hsafe : VisitorSafe image visit) : Safe (declaredRange image visit) fun _ ↦ True := by
  rw [declaredRange]
  refine .bind (iterate_spec hsafe .zero) fun r _ ↦ ?_
  obtain ⟨status, d⟩ := r
  cases status with
  | ok =>
    exact .ite (fun _ ↦ .some trivial) fun _ ↦ .ite (fun _ ↦ .some trivial) fun _ ↦ .some trivial
  | _ => exact .some trivial

theorem rangeInImage_safe {image : List Byte} {range : Option (Except MachoStatus (Nat × Nat))}
    (h : Safe range fun _ ↦ True) :
    Safe (rangeInImage image range) fun r ↦ ∀ found, r = .ok found →
      RangeInside image found.1 found.2 := by
  rw [rangeInImage]
  refine .bind h fun r _ ↦ ?_
  cases r with
  | error status => exact .some nofun
  | ok range =>
    refine .ite (fun _ ↦ .some nofun) fun hfits ↦ .some fun found heq ↦ ?_
    cases heq
    rw [RangeInside]
    omega

theorem findExportTrie_safe (image : List Byte) :
    Safe (findExportTrie image) fun r ↦ ∀ found, r = .ok found →
      RangeInside image found.1 found.2 :=
  rangeInImage_safe (declaredRange_safe (exportTrieVisit_safe image))

theorem findChainedFixups_safe (image : List Byte) :
    Safe (findChainedFixups image) fun r ↦ ∀ found, r = .ok found →
      RangeInside image found.1 found.2 :=
  rangeInImage_safe (declaredRange_safe (linkeditDataVisit_safe image))

/-! ## Everything together -/

/-- Every finder ends without a read outside the buffer, and what it finds lies inside: the tables
as they are declared, segments and sections with the load command they stand in. -/
structure FindersInside (image : List Byte) : Prop where
  symtab : ∀ base, Safe (findSymtabView base image) fun r ↦
    ∀ view, r = .ok view → view.Inside base image
  exportTrie : Safe (findExportTrie image) fun r ↦
    ∀ found, r = .ok found → RangeInside image found.1 found.2
  chainedFixups : Safe (findChainedFixups image) fun r ↦
    ∀ found, r = .ok found → RangeInside image found.1 found.2
  segment : ∀ segname, Safe (findSegment image segname) fun r ↦
    ∀ seg, r = .ok seg → seg.Inside image
  segments : ∀ (σ : Type) (visit : σ → Nat → MachoSegment → Bool × σ) (I : σ → Prop) (s : σ),
    (∀ s n seg, seg.Inside image → I s → I (visit s n seg).2) → I s →
      Safe (iterateSegments image visit s) fun r ↦ I r.2
  sections : ∀ (σ : Type) (visit : σ → Nat → MachoSection → Bool × σ) (I : σ → Prop) (s : σ),
    (∀ s n sect, sect.ReadFrom image → I s → I (visit s n sect).2) → I s →
      Safe (iterateSections image visit s) fun r ↦ I r.2
  sectionInfo : ∀ nSect, Safe (sectionInfo image nSect) fun r ↦
    ∀ sect, r = .ok sect → sect.ReadFrom image

/-- **The walk over the load commands**, of any buffer and with any visitor, and the finders built
on it. -/
theorem robustWalk (image : List Byte) :
    (∀ (σ : Type) (visit : σ → Nat → Nat → Nat → Bool × σ) (s : σ),
      Safe (iterateLoadCommands image (fun s cmd offset cmdsize ↦ some (visit s cmd offset cmdsize))
        s) fun r ↦ ∃ cmds,
        Visited (fun s cmd offset cmdsize ↦ some (visit s cmd offset cmdsize)) cmds
          s r.2 ∧ WalkedOver image cmds) ∧
      FindersInside image where
  left _ _ s := iterate_spec (fun _ _ _ ↦ .some trivial) s
  right := {
    symtab := fun base ↦ findSymtabView_safe base image
    exportTrie := findExportTrie_safe image
    chainedFixups := findChainedFixups_safe image
    segment := findSegment_safe image
    segments := fun _ _ I _ hvisit hs ↦ iterateSegments_safe I hvisit hs
    sections := fun _ _ I _ hvisit hs ↦ iterateSections_safe I hvisit hs
    sectionInfo := sectionInfo_safe image }

/-- The image of one segment command and nothing else, whose segment claims to lie far behind it. -/
def farSegment : List Byte :=
  littleEndian 4 mhMagic64 ++ littleEndian 4 0x0100000c ++ littleEndian 4 0 ++ littleEndian 4 2 ++
    littleEndian 4 1 ++ littleEndian 4 72 ++ littleEndian 4 0 ++ littleEndian 4 0 ++
    (littleEndian 4 lcSegment64 ++ littleEndian 4 72 ++ linkeditName ++ littleEndian 6 0 ++
      littleEndian 8 0x100000 ++ littleEndian 8 0x4000 ++ littleEndian 8 0x8000 ++
      littleEndian 8 0x4000 ++ littleEndian 4 1 ++ littleEndian 4 1 ++ littleEndian 4 0 ++
      littleEndian 4 0)

/-- The file range of a segment is reported as it stands there. -/
theorem farSegment_found : ∃ seg, findSegment farSegment linkeditName = some (.ok seg) ∧
    ¬ RangeInside farSegment seg.fileoff seg.filesize := by
  refine ⟨⟨linkeditName, 0x100000, 0x4000, 0x8000, 0x4000, 1, 1, 0, 0, 32, 72⟩, by decide, ?_⟩
  rw [RangeInside]
  decide

end HookKit.MachO
