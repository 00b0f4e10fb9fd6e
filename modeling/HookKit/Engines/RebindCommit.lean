import HookKit.Engines.Rebind

/-!
# What a commit of the rebind engine reports

A commit goes through the slots of a prepared bundle, image by image.  Here it is held against what
the writer was asked and what it answered, whoever wrote into the slots since they were prepared.

* `slotCells`, `slotTasks` — the slots as guarded writes.
* `Wrote` — what a commit did: the calls of the writer, and the records that came of them.
* `Reported` — the report is true.
* `CounterWraps` — the 32-bit count of the slots written is back at zero when an image is refused.
* `rebindCommitOne_reports` — the report is true, unless the counter wraps.
-/

set_option autoImplicit false

namespace HookKit.Rebind

open WordMemory GuardedWrites

variable {σ : Type}

/-! ## The slots as guarded writes -/

/-- The slots of the process. -/
def slotCells : Cells (SlotWorld σ) RebindSite UIntPtr Mutation where
  read w site := readWord w.mem site.address
  expected := RebindSite.original
  Separate a b := WordMemory.Separate a.address b.address
  symm := WordMemory.Separate.symm
  untouched := .none
  complete := .complete
  distinct := nofun

/-- What a writer promises: it touches its slot only, `NONE` proves that it did not touch that
either, and after `COMPLETE` the slot holds the value. -/
structure HonestWriter (write : RebindWrite σ) : Prop where
  frame : ∀ a v w x, 8 ≤ (x - a).toNat → (write a v w).2.mem x = w.mem x
  none : ∀ a v w, (write a v w).1 = .none → readWord (write a v w).2.mem a = readWord w.mem a
  complete : ∀ a v w, (write a v w).1 = .complete → readWord (write a v w).2.mem a = v

/-- The writes of some slots. -/
def siteTasks (write : RebindWrite σ) (values : List (RebindSite × UIntPtr)) :
    List (Task (SlotWorld σ) RebindSite UIntPtr Mutation) :=
  values.map fun p ↦ ⟨p.1, p.2, write p.1.address p.2⟩

variable (pac : Pac) (replacement : UIntPtr)

/-- What stands for a writer that is not there. -/
def noWriter : RebindWrite σ := fun _ _ w ↦ (.none, w)

/-- The writes of the slots of an image. -/
def slotTasks (entry : RebindBundleEntry σ) :
    List (Task (SlotWorld σ) RebindSite UIntPtr Mutation) :=
  siteTasks (entry.write.getD noWriter)
    (entry.plan.sites.map fun site ↦ (site, (replacementForSite pac site replacement).getD 0))

/-- The slots of some images. -/
def slotsOf (entries : List (RebindBundleEntry σ)) : List RebindSite :=
  entries.flatMap fun entry ↦ entry.plan.sites

/-- Nothing but its slots can keep an image from being written: there is a writer, there are slots,
the replacement has a value for each of them, and the predecessor is the one asked for. -/
def Admitted (sink : Option RebindSink) (entry : RebindBundleEntry σ) : Prop :=
  entry.write.isSome ∧ entry.plan.sites ≠ [] ∧
    (∀ site ∈ entry.plan.sites, (replacementForSite pac site replacement).isSome) ∧
    predecessorMatches entry.plan sink

/-- An image of which not a single slot can be written. -/
def Refused (sink : Option RebindSink) (entry : RebindBundleEntry σ) (w : SlotWorld σ) : Prop :=
  ¬ Admitted pac replacement sink entry ∨
    match slotTasks pac replacement entry with
    | [] => True
    | t :: _ => readWord w.mem t.cell.address ≠ t.cell.original ∨ (t.write w).1 = .none

/-- All the slots of some images are written, a positive multiple of `2 ^ 32` of them, and the image
behind these is refused. -/
def CounterWraps (entries : List (RebindBundleEntry σ)) (s : RebindState σ) : Prop :=
  ∃ before entry after w, entries = before ++ entry :: after ∧
    (∀ e ∈ before, Admitted pac replacement s.sink e) ∧
    writeAll slotCells (before.flatMap (slotTasks pac replacement)) s.world = some w ∧
    Refused pac replacement s.sink entry w ∧
    slotsOf before ≠ [] ∧ 2 ^ 32 ∣ (slotsOf before).length

/-- The report of a commit is true, the writer having been called so. -/
structure Reported (entries : List (RebindBundleEntry σ)) (s : RebindState σ)
    (out : Mutation × RebindState σ) (calls : List SlotCall) : Prop where
  logged : out.2.calls = s.calls ++ calls
  /-- The slots are taken in order, each at most once. -/
  order : calls.map Call.cell <+: slotsOf entries
  none : out.1 = .none → (∀ call ∈ calls, call.outcome = .none) ∧
    ∀ site ∈ slotsOf entries,
      readWord out.2.world.mem site.address = readWord s.world.mem site.address
  complete : out.1 = .complete → ∀ site ∈ slotsOf entries, ∃ value,
    replacementForSite pac site replacement = some value ∧
      readWord out.2.world.mem site.address = value
  partly : out.1 = .partly → ∃ call ∈ calls, call.outcome ≠ .none
  unknown : out.1 = .unknown → ∃ call ∈ calls, call.outcome = .unknown
  records : out.2.sink.map RebindSink.records = s.sink.map fun sink ↦
    sink.records ++ (calls.filter fun call ↦ call.outcome ≠ .none).map slotArtifact
  /-- The writer is called for no slot that somebody changed. -/
  current : ∀ call ∈ calls, call.found = call.cell.original
  stale : ∀ site ∈ slotsOf entries, readWord s.world.mem site.address ≠ site.original →
    readWord out.2.world.mem site.address = readWord s.world.mem site.address

/-- `*out_written` is the number of the writes that were complete. -/
def CountsWrites (s : RebindState σ) (out : (Mutation × Nat) × RebindState σ) : Prop :=
  ∃ calls, out.2.calls = s.calls ++ calls ∧
    out.1.2 = calls.countP fun call ↦ call.outcome = .complete

/-! ## The loop over the slots -/

/-- The writer was called so, and the sink got the artifacts of the calls. -/
structure Wrote (tasks : List (Task (SlotWorld σ) RebindSite UIntPtr Mutation))
    (s s' : RebindState σ) (calls : List SlotCall) : Prop where
  logged : s'.calls = s.calls ++ calls
  ran : Ran slotCells tasks s.world calls s'.world
  sink : s'.sink = calls.foldl recordArtifact s.sink

theorem Wrote.stop (tasks : List (Task (SlotWorld σ) RebindSite UIntPtr Mutation))
    (s : RebindState σ) : Wrote tasks s s [] :=
  ⟨(List.append_nil _).symm, .stop _ _, rfl⟩

/-- What the outcome and the count say of the calls, if `start` slots were written before them. -/
structure Judged (start : Nat) (out : Mutation × Nat) (calls : List SlotCall) : Prop where
  none : out.1 = .none → start = 0 ∧ ∀ call ∈ calls, call.outcome = .none
  partly : out.1 = .partly → start ≠ 0 ∨ ∃ call ∈ calls, call.outcome ≠ .none
  unknown : out.1 = .unknown → ∃ call ∈ calls, call.outcome = .unknown
  counts : out.2 = start + calls.countP fun call ↦ call.outcome = .complete

/-- A refusal: nothing was called, or the one call answered `NONE`. -/
theorem Judged.refusal (start : Nat) {calls : List SlotCall}
    (hnone : ∀ call ∈ calls, call.outcome = .none) :
    Judged start (if start = 0 then .none else .partly, start) calls := by
  have hcount : calls.countP (fun call ↦ call.outcome = .complete) = 0 := by
    rw [List.countP_eq_zero]
    intro call hcall
    simp [hnone call hcall]
  by_cases hstart : start = 0
  · simp only [hstart, if_true]
    exact ⟨fun _ ↦ ⟨rfl, hnone⟩, nofun, nofun, by rw [hcount]⟩
  · simp only [hstart, if_false]
    exact ⟨nofun, fun _ ↦ .inl hstart, nofun, by rw [hcount, Nat.add_zero]⟩

/-- A failure that is no refusal. -/
theorem Judged.failure (start : Nat) {call : SlotCall} (hnone : call.outcome ≠ .none)
    (hcomplete : call.outcome ≠ .complete) : Judged start (call.outcome, start) [call] := by
  refine ⟨fun h ↦ absurd h hnone, fun _ ↦ .inr ⟨call, List.mem_singleton_self _, hnone⟩,
    fun h ↦ ⟨call, List.mem_singleton_self _, h⟩, ?_⟩
  rw [List.countP_cons_of_neg (by simpa using hcomplete), List.countP_nil, Nat.add_zero]

/-- One more slot was written before the others. -/
theorem Judged.cons {start : Nat} {out : Mutation × Nat} {calls : List SlotCall} {call : SlotCall}
    (h : Judged (start + 1) out calls) (hcall : call.outcome = .complete) :
    Judged start out (call :: calls) := by
  refine ⟨fun hout ↦ ?_, fun _ ↦ .inr ⟨call, List.mem_cons_self, by simp [hcall]⟩,
    fun hout ↦ ?_, ?_⟩
  · exact absurd (h.none hout).1 (Nat.succ_ne_zero _)
  · obtain ⟨call', hmem, hunknown⟩ := h.unknown hout
    exact ⟨call', List.mem_cons_of_mem _ hmem, hunknown⟩
  · rw [h.counts, List.countP_cons_of_pos (by simp [hcall])]
    omega

variable {write : RebindWrite σ} {site : RebindSite} {value : UIntPtr}
  {rest values : List (RebindSite × UIntPtr)} {written : Nat} {s : RebindState σ}

/-- The state after a call of the writer. -/
def called (write : RebindWrite σ) (site : RebindSite) (value : UIntPtr) (s : RebindState σ) :
    SlotCall × RebindState σ :=
  let answer := write site.address value s.world
  let call : SlotCall := ⟨site, value, readWord s.world.mem site.address, answer.1⟩
  (call, ⟨answer.2, recordArtifact s.sink call, s.calls ++ [call]⟩)

theorem writeSites_stale (h : readWord s.world.mem site.address ≠ site.original) :
    writeSites write ((site, value) :: rest) written s =
      ((if written = 0 then .none else .partly, written), s) := by
  rw [writeSites, if_pos h]

theorem writeSites_current (h : readWord s.world.mem site.address = site.original) :
    writeSites write ((site, value) :: rest) written s =
      match (write site.address value s.world).1 with
      | .complete => writeSites write rest (written + 1) (called write site value s).2
      | .none => ((if written = 0 then .none else .partly, written), (called write site value s).2)
      | .partly => ((.partly, written), (called write site value s).2)
      | .unknown => ((.unknown, written), (called write site value s).2) := by
  rw [writeSites, if_neg (not_not_intro h)]
  rfl

/-- The call of a slot that is the last one. -/
theorem Wrote.last (h : readWord s.world.mem site.address = site.original)
    (hout : (write site.address value s.world).1 ≠ .complete) :
    Wrote (siteTasks write ((site, value) :: rest)) s (called write site value s).2
      [(called write site value s).1] :=
  ⟨rfl, .last _ h hout, rfl⟩

/-- The call of a slot that others follow. -/
theorem Wrote.next {calls : List SlotCall} {s' : RebindState σ}
    (h : readWord s.world.mem site.address = site.original)
    (hout : (write site.address value s.world).1 = .complete)
    (hrest : Wrote (siteTasks write rest) (called write site value s).2 s' calls) :
    Wrote (siteTasks write ((site, value) :: rest)) s s'
      ((called write site value s).1 :: calls) := by
  refine ⟨?_, .next h hout hrest.ran, hrest.sink⟩
  rw [hrest.logged, called, List.append_assoc, List.singleton_append]

/-- What the loop over the slots of an image did. -/
theorem writeSites_wrote (write : RebindWrite σ) (values : List (RebindSite × UIntPtr))
    (written : Nat) (s : RebindState σ) :
    ∃ calls, Wrote (siteTasks write values) s (writeSites write values written s).2 calls ∧
      Judged written (writeSites write values written s).1 calls ∧
      ((writeSites write values written s).1.1 = .complete →
        Finished slotCells (siteTasks write values) calls) := by
  induction values generalizing written s with
  | nil =>
    refine ⟨[], .stop _ _, ⟨nofun, nofun, nofun, rfl⟩, fun _ ↦ ⟨rfl, nofun⟩⟩
  | cons p rest ih =>
    obtain ⟨site, value⟩ := p
    by_cases hcurrent : readWord s.world.mem site.address = site.original
    · have hout : (called write site value s).1.outcome =
          (write site.address value s.world).1 := rfl
      rw [writeSites_current hcurrent]
      cases h : (write site.address value s.world).1 <;> rw [h] at hout <;> dsimp only
      case complete =>
        obtain ⟨calls, hwrote, hjudged, hall⟩ := ih (written + 1) (called write site value s).2
        exact ⟨_, hwrote.next hcurrent h, hjudged.cons hout, fun hcomplete ↦
          (hall hcomplete).cons hout⟩
      case none =>
        refine ⟨_, .last hcurrent (by simp [h]), .refusal written fun call hcall ↦ ?_, ?_⟩
        · rw [List.mem_singleton.mp hcall, hout]
        · intro h
          split at h <;> cases h
      case partly =>
        refine ⟨_, .last hcurrent (by simp [h]), ?_, nofun⟩
        rw [← hout]
        exact .failure written (by simp [hout]) (by simp [hout])
      case unknown =>
        refine ⟨_, .last hcurrent (by simp [h]), ?_, nofun⟩
        rw [← hout]
        exact .failure written (by simp [hout]) (by simp [hout])
    · rw [writeSites_stale hcurrent]
      refine ⟨[], .stop _ _, .refusal written nofun, fun h ↦ ?_⟩
      split at h <;> cases h

/-- The loop refuses from the first slot on, if at all. -/
theorem writeSites_none (h : (writeSites write ((site, value) :: rest) 0 s).1.1 = .none) :
    readWord s.world.mem site.address ≠ site.original ∨
      (write site.address value s.world).1 = .none := by
  by_cases hcurrent : readWord s.world.mem site.address = site.original
  · refine .inr ?_
    rw [writeSites_current hcurrent] at h
    split at h
    · obtain ⟨calls, -, hjudged, -⟩ := writeSites_wrote write rest 1 (called write site value s).2
      exact absurd (hjudged.none h).1 Nat.one_ne_zero
    · assumption
    · cases h
    · cases h
  · exact .inl hcurrent

/-- A refusal of the first slot is a refusal of the loop. -/
theorem writeSites_refused (h : readWord s.world.mem site.address ≠ site.original ∨
    (write site.address value s.world).1 = .none) :
    (writeSites write ((site, value) :: rest) 0 s).1 = (.none, 0) ∧
      ∃ calls, (writeSites write ((site, value) :: rest) 0 s).2.calls = s.calls ++ calls := by
  by_cases hcurrent : readWord s.world.mem site.address = site.original
  · have hout := h.resolve_left (not_not_intro hcurrent)
    rw [writeSites_current hcurrent, hout]
    exact ⟨rfl, [(called write site value s).1], rfl⟩
  · rw [writeSites_stale hcurrent]
    exact ⟨rfl, [], (List.append_nil _).symm⟩

/-- The predecessor a sink asks for. -/
def required (sink : Option RebindSink) : Option UIntPtr := sink.bind RebindSink.requiredPredecessor

theorem recordArtifact_required (sink : Option RebindSink) (call : SlotCall) :
    required (recordArtifact sink call) = required sink := by
  rw [recordArtifact]
  split
  · rfl
  · cases sink <;> rfl

/-- All the slots were written: so many calls, and the world is that of `writeAll`. -/
structure Written (count : Nat) (w : SlotWorld σ) (s s' : RebindState σ) : Prop where
  world : s'.world = w
  required : required s'.sink = required s.sink
  logged : ∃ calls, s'.calls = s.calls ++ calls ∧ calls.length = count ∧
    ∀ call ∈ calls, call.outcome = .complete

theorem Written.trans {count count' : Nat} {w w' : SlotWorld σ} {s s' s'' : RebindState σ}
    (h : Written count w s s') (h' : Written count' w' s' s'') :
    Written (count + count') w' s s'' := by
  obtain ⟨calls, hlogged, hlen, hall⟩ := h.logged
  obtain ⟨calls', hlogged', hlen', hall'⟩ := h'.logged
  refine ⟨h'.world, h'.required.trans h.required, calls ++ calls', ?_, ?_, fun call hcall ↦ ?_⟩
  · rw [hlogged', hlogged, List.append_assoc]
  · rw [List.length_append, hlen, hlen']
  · exact (List.mem_append.mp hcall).elim (hall call) (hall' call)

/-- The loop goes through, if every slot is current and every write completes. -/
theorem writeSites_written {w : SlotWorld σ}
    (h : writeAll slotCells (siteTasks write values) s.world = some w) :
    ∃ s', writeSites write values written s = ((.complete, written + values.length), s') ∧
      Written values.length w s s' := by
  induction values generalizing written s with
  | nil =>
    cases h
    exact ⟨s, rfl, rfl, rfl, [], (List.append_nil _).symm, rfl, nofun⟩
  | cons p rest ih =>
    obtain ⟨site, value⟩ := p
    obtain ⟨⟨hcurrent, hout⟩, hrest⟩ := writeAll_cons_eq_some.mp h
    obtain ⟨s', heq, hwritten⟩ := @ih (written + 1) (called write site value s).2 hrest
    have hout : (write site.address value s.world).1 = .complete := hout
    have hone : Written 1 (called write site value s).2.world s (called write site value s).2 := by
      refine ⟨rfl, recordArtifact_required _ _, [(called write site value s).1], rfl, rfl, ?_⟩
      intro call hcall
      rw [List.mem_singleton.mp hcall]
      exact hout
    refine ⟨s', ?_, ?_⟩
    · rw [writeSites_current hcurrent, hout]
      rw [heq, List.length_cons, Nat.add_assoc, Nat.add_comm 1]
    · rw [List.length_cons, Nat.add_comm]
      exact hone.trans hwritten

/-! ## The commit of an image -/

variable {pac : Pac} {replacement : UIntPtr} {entry : RebindBundleEntry σ}

theorem replacementsForSites_eq_some {sites : List RebindSite}
    (h : replacementsForSites pac replacement sites = some values) :
    (∀ site ∈ sites, (replacementForSite pac site replacement).isSome) ∧
      values = sites.map fun site ↦ (site, (replacementForSite pac site replacement).getD 0) := by
  induction sites generalizing values with
  | nil =>
    cases h
    exact ⟨nofun, rfl⟩
  | cons site rest ih =>
    rw [replacementsForSites] at h
    split at h
    · rename_i value values' hvalue hvalues
      cases h
      obtain ⟨hsome, heq⟩ := ih hvalues
      refine ⟨fun site' hmem ↦ ?_, ?_⟩
      · rcases List.mem_cons.mp hmem with rfl | hmem
        · rw [hvalue]
          rfl
        · exact hsome site' hmem
      · rw [List.map_cons, hvalue, Option.getD_some, ← heq]
    · cases h

theorem replacementsForSites_of_isSome {sites : List RebindSite}
    (h : ∀ site ∈ sites, (replacementForSite pac site replacement).isSome) :
    replacementsForSites pac replacement sites =
      some (sites.map fun site ↦ (site, (replacementForSite pac site replacement).getD 0)) := by
  induction sites with
  | nil => rfl
  | cons site rest ih =>
    obtain ⟨value, hvalue⟩ := Option.isSome_iff_exists.mp (h site List.mem_cons_self)
    rw [replacementsForSites, hvalue, ih fun site' hmem ↦ h site' (List.mem_cons_of_mem _ hmem),
      List.map_cons, hvalue, Option.getD_some]

theorem predecessorMatches_congr {plan : RebindPlan} {sink sink' : Option RebindSink}
    (h : required sink = required sink') :
    predecessorMatches plan sink = predecessorMatches plan sink' := by
  rw [required, required] at h
  rw [predecessorMatches, predecessorMatches, h]

/-- An image that is admitted is written from its first slot on. -/
theorem rebindCommit_admitted (h : Admitted pac replacement s.sink entry) :
    ∃ write, entry.write = some write ∧ rebindCommit pac entry.write entry.plan replacement s =
      writeSites write
        (entry.plan.sites.map fun site ↦ (site, (replacementForSite pac site replacement).getD 0))
        0 s := by
  obtain ⟨hwrite, hsites, hvalues, hmatch⟩ := h
  obtain ⟨write, hwrite⟩ := Option.isSome_iff_exists.mp hwrite
  refine ⟨write, hwrite, ?_⟩
  unfold rebindCommit
  rw [hwrite]
  dsimp only
  rw [if_neg hsites, replacementsForSites_of_isSome hvalues]
  dsimp only
  rw [hmatch]
  rfl

/-- An image that is not admitted is left alone. -/
theorem rebindCommit_not_admitted (h : ¬ Admitted pac replacement s.sink entry) :
    rebindCommit pac entry.write entry.plan replacement s = ((.none, 0), s) := by
  unfold rebindCommit
  split
  · rfl
  · rename_i write hwrite
    split
    · rfl
    · rename_i hsites
      split
      · rfl
      · rename_i values hvalues
        have hmatch : predecessorMatches entry.plan s.sink = false := by
          refine Bool.eq_false_iff.mpr fun hmatch ↦ h ⟨?_, hsites, ?_, hmatch⟩
          · rw [hwrite]
            rfl
          · exact (replacementsForSites_eq_some hvalues).1
        rw [hmatch]
        rfl

theorem slotTasks_eq {write : RebindWrite σ} (h : entry.write = some write) :
    slotTasks pac replacement entry = siteTasks write
      (entry.plan.sites.map fun site ↦
      (site, (replacementForSite pac site replacement).getD 0)) := by
  rw [slotTasks, h, Option.getD_some]

/-- What the commit of an image did. -/
theorem rebindCommit_wrote (pac : Pac) (replacement : UIntPtr) (entry : RebindBundleEntry σ)
    (s : RebindState σ) :
    ∃ calls, Wrote (slotTasks pac replacement entry) s
        (rebindCommit pac entry.write entry.plan replacement s).2 calls ∧
      Judged 0 (rebindCommit pac entry.write entry.plan replacement s).1 calls ∧
      ((rebindCommit pac entry.write entry.plan replacement s).1.1 = .complete →
        Admitted pac replacement s.sink entry ∧
          Finished slotCells (slotTasks pac replacement entry) calls) := by
  by_cases hadmitted : Admitted pac replacement s.sink entry
  · obtain ⟨write, hwrite, heq⟩ := rebindCommit_admitted hadmitted
    obtain ⟨calls, hwrote, hjudged, hall⟩ := writeSites_wrote write
      (entry.plan.sites.map fun site ↦ (site, (replacementForSite pac site replacement).getD 0)) 0 s
    rw [heq, slotTasks_eq hwrite]
    exact ⟨calls, hwrote, hjudged, fun h ↦ ⟨hadmitted, hall h⟩⟩
  · rw [rebindCommit_not_admitted hadmitted]
    exact ⟨[], .stop _ _, .refusal 0 nofun, nofun⟩

/-- An image for which the commit answers `NONE` is refused. -/
theorem rebindCommit_none
    (h : (rebindCommit pac entry.write entry.plan replacement s).1.1 = .none) :
    Refused pac replacement s.sink entry s.world := by
  by_cases hadmitted : Admitted pac replacement s.sink entry
  · obtain ⟨write, hwrite, heq⟩ := rebindCommit_admitted hadmitted
    refine .inr ?_
    rw [heq] at h
    rw [slotTasks_eq hwrite]
    cases hsites : entry.plan.sites with
    | nil => trivial
    | cons site rest =>
      rw [hsites] at h
      exact writeSites_none h
  · exact .inl hadmitted

/-- And the other way round: nothing is counted. -/
theorem rebindCommit_refused (h : Refused pac replacement s.sink entry s.world) :
    (rebindCommit pac entry.write entry.plan replacement s).1 = (.none, 0) := by
  by_cases hadmitted : Admitted pac replacement s.sink entry
  · obtain ⟨write, hwrite, heq⟩ := rebindCommit_admitted hadmitted
    have hfirst := h.resolve_left (not_not_intro hadmitted)
    rw [slotTasks_eq hwrite] at hfirst
    rw [heq]
    cases hsites : entry.plan.sites with
    | nil => exact absurd hsites hadmitted.2.1
    | cons site rest =>
      rw [hsites] at hfirst
      exact (writeSites_refused hfirst).1
  · rw [rebindCommit_not_admitted hadmitted]

/-- All the slots of an image that is admitted are written, if every write completes. -/
theorem rebindCommit_written {w : SlotWorld σ} (hadmitted : Admitted pac replacement s.sink entry)
    (h : writeAll slotCells (slotTasks pac replacement entry) s.world = some w) :
    ∃ s', rebindCommit pac entry.write entry.plan replacement s =
        ((.complete, entry.plan.sites.length), s') ∧
      Written entry.plan.sites.length w s s' := by
  obtain ⟨write, hwrite, heq⟩ := rebindCommit_admitted hadmitted
  rw [slotTasks_eq hwrite] at h
  obtain ⟨s', hs', hwritten⟩ := @writeSites_written _ write _ 0 _ _ h
  rw [List.length_map] at hs' hwritten
  refine ⟨s', ?_, hwritten⟩
  rw [heq, hs', Nat.zero_add]

/-! ## The loop over the images -/

variable {entries before after : List (RebindBundleEntry σ)} {total : Nat}

theorem Wrote.append {first : List (Task (SlotWorld σ) RebindSite UIntPtr Mutation)}
    {more : List (Task (SlotWorld σ) RebindSite UIntPtr Mutation)} {s s' s'' : RebindState σ}
    {calls calls' : List SlotCall} (h : Wrote first s s' calls)
    (hall : Finished slotCells first calls) (h' : Wrote more s' s'' calls') :
    Wrote (first ++ more) s s'' (calls ++ calls') := by
  refine ⟨?_, h.ran.append hall h'.ran, ?_⟩
  · rw [h'.logged, h.logged, List.append_assoc]
  · rw [h'.sink, h.sink, List.foldl_append]

theorem Wrote.required_eq {tasks : List (Task (SlotWorld σ) RebindSite UIntPtr Mutation)}
    {s s' : RebindState σ} {calls : List SlotCall} (h : Wrote tasks s s' calls) :
    required s'.sink = required s.sink := by
  rw [h.sink]
  generalize s.sink = sink
  clear h
  induction calls generalizing sink with
  | nil => rfl
  | cons call rest ih =>
    rw [List.foldl_cons, ih, recordArtifact_required]

theorem Admitted.congr {sink sink' : Option RebindSink} (h : required sink = required sink')
    (hadmitted : Admitted pac replacement sink entry) : Admitted pac replacement sink' entry := by
  obtain ⟨hwrite, hsites, hvalues, hmatch⟩ := hadmitted
  exact ⟨hwrite, hsites, hvalues, (predecessorMatches_congr h).symm.trans hmatch⟩

theorem Refused.congr {sink sink' : Option RebindSink} {w : SlotWorld σ}
    (h : required sink = required sink') (hrefused : Refused pac replacement sink entry w) :
    Refused pac replacement sink' entry w :=
  hrefused.imp_left fun hnot hadmitted ↦ hnot (hadmitted.congr h.symm)

theorem length_slotTasks : (slotTasks pac replacement entry).length = entry.plan.sites.length := by
  rw [slotTasks, siteTasks, List.length_map, List.length_map]

/-- Where a commit that answers `NONE` ends: behind some images that are written, at one that is
refused, with the counter at zero. -/
structure Halted (pac : Pac) (replacement : UIntPtr) (entries : List (RebindBundleEntry σ))
    (total : Nat) (s : RebindState σ) (before : List (RebindBundleEntry σ)) : Prop where
  split : ∃ entry after w, entries = before ++ entry :: after ∧
    writeAll slotCells (before.flatMap (slotTasks pac replacement)) s.world = some w ∧
    Refused pac replacement s.sink entry w
  admitted : ∀ e ∈ before, Admitted pac replacement s.sink e
  counter : (total + (slotsOf before).length) % 2 ^ 32 = 0

/-- One image was written before the others. -/
theorem Halted.cons {s' : RebindState σ} {calls : List SlotCall} {written : Nat}
    (h : Halted pac replacement entries ((total + written) % 2 ^ 32) s' before)
    (hwrote : Wrote (slotTasks pac replacement entry) s s' calls)
    (hadmitted : Admitted pac replacement s.sink entry)
    (hfinished : Finished slotCells (slotTasks pac replacement entry) calls)
    (hwritten : written = entry.plan.sites.length) :
    Halted pac replacement (entry :: entries) total s (entry :: before) := by
  obtain ⟨⟨entry', after, w, hsplit, hall, hrefused⟩, hadmitted', hcounter⟩ := h
  have hrequired := hwrote.required_eq
  refine ⟨⟨entry', after, w, ?_, ?_, hrefused.congr hrequired⟩, fun e he ↦ ?_, ?_⟩
  · rw [hsplit]
    rfl
  · rw [List.flatMap_cons, writeAll_append, hwrote.ran.writeAll_eq hfinished]
    exact hall
  · rcases List.mem_cons.mp he with rfl | he
    · exact hadmitted
    · exact (hadmitted' e he).congr hrequired
  · rw [slotsOf, List.flatMap_cons, List.length_append, ← hwritten, ← Nat.add_assoc, Nat.add_mod,
      ← Nat.mod_mod (total + written), ← Nat.add_mod]
    exact hcounter

/-- What the commit of all the images did. -/
theorem commitEntries_wrote (pac : Pac) (replacement : UIntPtr)
    (entries : List (RebindBundleEntry σ)) (total : Nat) (s : RebindState σ) :
    ∃ calls, Wrote (entries.flatMap (slotTasks pac replacement)) s
        (commitEntries pac replacement entries total s).2 calls ∧
      ((commitEntries pac replacement entries total s).1 = .complete →
        (∀ e ∈ entries, Admitted pac replacement s.sink e) ∧
          Finished slotCells (entries.flatMap (slotTasks pac replacement)) calls) ∧
      ((commitEntries pac replacement entries total s).1 = .unknown →
        ∃ call ∈ calls, call.outcome = .unknown) ∧
      ((commitEntries pac replacement entries total s).1 = .partly →
        total ≠ 0 ∨ ∃ call ∈ calls, call.outcome ≠ .none) ∧
      ((commitEntries pac replacement entries total s).1 = .none →
        ∃ before, Halted pac replacement entries total s before ∧
          (before = [] → ∀ call ∈ calls, call.outcome = .none)) := by
  induction entries generalizing total s with
  | nil =>
    exact ⟨[], .stop _ _, fun _ ↦ ⟨nofun, rfl, nofun⟩, nofun, nofun, nofun⟩
  | cons entry rest ih =>
    obtain ⟨calls, hwrote, hjudged, hcomplete⟩ := rebindCommit_wrote pac replacement entry s
    have hwrote' : Wrote ((entry :: rest).flatMap (slotTasks pac replacement)) s
        (rebindCommit pac entry.write entry.plan replacement s).2 calls :=
      ⟨hwrote.logged, hwrote.ran.weaken _, hwrote.sink⟩
    rw [commitEntries]
    cases hout : (rebindCommit pac entry.write entry.plan replacement s).1.1 with
    | complete =>
      obtain ⟨hadmitted, hfinished⟩ := hcomplete hout
      have hwritten : (rebindCommit pac entry.write entry.plan replacement s).1.2 =
          entry.plan.sites.length := by
        rw [hjudged.counts, Nat.zero_add, ← @length_slotTasks _ pac replacement, ← hfinished.length,
          List.countP_eq_length]
        exact fun call hcall ↦ decide_eq_true (hfinished.complete call hcall)
      obtain ⟨calls', hwrote', hall, hunknown, hpartly, hnone⟩ := ih
        ((total + (rebindCommit pac entry.write entry.plan replacement s).1.2) % 2 ^ 32)
        (rebindCommit pac entry.write entry.plan replacement s).2
      refine ⟨calls ++ calls', hwrote.append hfinished hwrote', fun h ↦ ?_, fun h ↦ ?_, fun h ↦ ?_,
        fun h ↦ ?_⟩
      · obtain ⟨hadmitted', hfinished'⟩ := hall h
        refine ⟨fun e he ↦ ?_, hfinished.append hfinished'⟩
        rcases List.mem_cons.mp he with rfl | he
        · exact hadmitted
        · exact (hadmitted' e he).congr hwrote.required_eq
      · obtain ⟨call, hcall, hout⟩ := hunknown h
        exact ⟨call, List.mem_append_right _ hcall, hout⟩
      · have hsites : 0 < calls.length := by
          rw [hfinished.length, length_slotTasks]
          exact List.length_pos_of_ne_nil hadmitted.2.1
        have hmem := List.getElem_mem hsites
        refine .inr ⟨calls[0], List.mem_append_left _ hmem, ?_⟩
        rw [hfinished.complete _ hmem]
        nofun
      · obtain ⟨before, hhalted, -⟩ := hnone h
        exact ⟨entry :: before, hhalted.cons hwrote hadmitted hfinished hwritten, nofun⟩
    | unknown => exact ⟨calls, hwrote', nofun, fun _ ↦ hjudged.unknown hout, nofun, nofun⟩
    | partly =>
      refine ⟨calls, hwrote', nofun, nofun, fun _ ↦ ?_, nofun⟩
      exact (hjudged.partly hout).imp_left fun h ↦ absurd rfl h
    | none =>
      obtain ⟨-, hnone⟩ := hjudged.none hout
      have hzero := congrArg Prod.snd (rebindCommit_refused (rebindCommit_none hout))
      dsimp only at hzero ⊢
      rw [hzero, Nat.add_zero]
      by_cases htotal : total % 2 ^ 32 = 0
      · rw [htotal]
        refine ⟨calls, hwrote', nofun, nofun, nofun, fun _ ↦ ⟨[], ⟨?_, nofun, ?_⟩, fun _ ↦ hnone⟩⟩
        · exact ⟨entry, rest, s.world, rfl, rfl, rebindCommit_none hout⟩
        · exact htotal
      · rw [if_pos htotal]
        refine ⟨calls, hwrote', nofun, nofun, fun _ ↦ .inl fun h ↦ htotal ?_, nofun⟩
        rw [h, Nat.zero_mod]

/-- The images that can be written are gone through. -/
theorem commitEntries_written {rest : List (RebindBundleEntry σ)} {w : SlotWorld σ}
    (htotal : total < 2 ^ 32) (hadmitted : ∀ e ∈ before, Admitted pac replacement s.sink e)
    (hall : writeAll slotCells (before.flatMap (slotTasks pac replacement)) s.world = some w) :
    ∃ s', commitEntries pac replacement (before ++ rest) total s =
        commitEntries pac replacement rest ((total + (slotsOf before).length) % 2 ^ 32) s' ∧
      Written (slotsOf before).length w s s' := by
  induction before generalizing total s with
  | nil =>
    cases hall
    refine ⟨s, ?_, rfl, rfl, [], (List.append_nil _).symm, rfl, nofun⟩
    rw [slotsOf, List.flatMap_nil, List.length_nil, Nat.add_zero, Nat.mod_eq_of_lt htotal,
      List.nil_append]
  | cons entry before ih =>
    rw [List.flatMap_cons, writeAll_append] at hall
    obtain ⟨w₁, hfirst, hrest⟩ := Option.bind_eq_some_iff.mp hall
    obtain ⟨s₁, hs₁, hwritten⟩ := rebindCommit_written (hadmitted entry List.mem_cons_self) hfirst
    obtain ⟨s', hs', hwritten'⟩ :=
      @ih s₁ ((total + entry.plan.sites.length) % 2 ^ 32) (Nat.mod_lt _ (by decide))
        (fun e he ↦ (hadmitted e (List.mem_cons_of_mem _ he)).congr hwritten.required.symm)
        (by rwa [hwritten.world])
    refine ⟨s', ?_, ?_⟩
    · rw [List.cons_append, commitEntries, hs₁]
      dsimp only
      rw [hs', slotsOf, slotsOf, List.flatMap_cons, List.length_append, ← Nat.add_assoc,
        Nat.add_mod ((total + _) % _), Nat.mod_mod, ← Nat.add_mod]
    · rw [slotsOf, List.flatMap_cons, List.length_append]
      exact hwritten.trans hwritten'

/-! ## The report -/

/-- The writes of an honest writer are honest. -/
theorem HonestWriter.task (h : HonestWriter write) (site : RebindSite) (value : UIntPtr) :
    Task.Honest slotCells ⟨site, value, write site.address value⟩ where
  frame _ _ hsep := readWord_congr fun _ hi ↦ h.frame _ _ _ _ (hsep.outside hi)
  untouched w hout := h.none _ _ w hout
  complete w hout := h.complete _ _ w hout

theorem noWriter_honest : HonestWriter (noWriter : RebindWrite σ) :=
  ⟨fun _ _ _ _ _ ↦ rfl, fun _ _ _ _ ↦ rfl, nofun⟩

theorem mem_slotTasks {t : Task (SlotWorld σ) RebindSite UIntPtr Mutation} :
    t ∈ slotTasks pac replacement entry ↔ ∃ site ∈ entry.plan.sites,
      t = ⟨site, (replacementForSite pac site replacement).getD 0,
        (entry.write.getD noWriter) site.address
          ((replacementForSite pac site replacement).getD 0)⟩ := by
  rw [slotTasks, siteTasks, List.map_map, List.mem_map]
  exact ⟨fun ⟨site, hmem, heq⟩ ↦ ⟨site, hmem, heq.symm⟩,
    fun ⟨site, hmem, heq⟩ ↦ ⟨site, hmem, heq.symm⟩⟩

/-- A slot of some images is written so. -/
theorem mem_slotsOf (pac : Pac) (replacement : UIntPtr) {site : RebindSite}
    (h : site ∈ slotsOf entries) :
    ∃ t ∈ entries.flatMap (slotTasks pac replacement), t.cell = site ∧
      t.value = (replacementForSite pac site replacement).getD 0 := by
  obtain ⟨entry, hentry, hsite⟩ := List.mem_flatMap.mp h
  exact ⟨_, List.mem_flatMap.mpr ⟨entry, hentry, mem_slotTasks.mpr ⟨site, hsite, rfl⟩⟩, rfl, rfl⟩

theorem cells_slotTasks (pac : Pac) (replacement : UIntPtr) (entries : List (RebindBundleEntry σ)) :
    (entries.flatMap (slotTasks pac replacement)).map Task.cell = slotsOf entries := by
  rw [List.map_flatMap, slotsOf]
  refine List.flatMap_congr fun entry _ ↦ ?_
  rw [slotTasks, siteTasks, List.map_map, List.map_map]
  exact List.map_id _

theorem honest_slotTasks (pac : Pac) (replacement : UIntPtr)
    (honest : ∀ entry ∈ entries, ∀ write, entry.write = some write →
    HonestWriter write) : ∀ t ∈ entries.flatMap (slotTasks pac replacement),
    t.Honest slotCells := by
  intro t ht
  obtain ⟨entry, hentry, ht⟩ := List.mem_flatMap.mp ht
  obtain ⟨site, -, rfl⟩ := mem_slotTasks.mp ht
  cases hwrite : entry.write with
  | none => exact noWriter_honest.task _ _
  | some write => exact (honest entry hentry write hwrite).task _ _

/-- The artifacts are those of the calls that touched a slot or may have. -/
theorem records_foldl (calls : List SlotCall) (sink : Option RebindSink) :
    (calls.foldl recordArtifact sink).map RebindSink.records = sink.map fun sink ↦
      sink.records ++ (calls.filter fun call ↦ call.outcome ≠ .none).map slotArtifact := by
  induction calls generalizing sink with
  | nil =>
    cases sink with
    | none => rfl
    | some sink => simp
  | cons call rest ih =>
    rw [List.foldl_cons, ih, recordArtifact]
    by_cases hout : call.outcome = .none
    · rw [if_pos hout, List.filter_cons_of_neg (by simpa using hout)]
    · rw [if_neg hout, List.filter_cons_of_pos (by simpa using hout)]
      cases sink with
      | none => rfl
      | some sink => simp

/-- The callback goes through the images it was handed, be it one, and publishes the original. -/
theorem rebindCommitOne_eq (pac : Pac) (write : Option (RebindWrite σ)) (replacement : UIntPtr)
    (prepared : RebindPrepared σ) (s : RebindState σ) :
    ∃ sink, rebindCommitOne pac write replacement prepared s =
        ((commitEntries pac replacement (prepared.entries write) 0 s).1,
          { (commitEntries pac replacement (prepared.entries write) 0 s).2 with sink := sink }) ∧
      sink.map RebindSink.records =
        (commitEntries pac replacement (prepared.entries write) 0 s).2.sink.map
          RebindSink.records := by
  have hpublish : ∀ (sink : Option RebindSink) agree original,
      (publishOriginal sink agree original).map RebindSink.records =
        sink.map RebindSink.records := by
    intro sink agree original
    cases sink <;> cases agree <;> rfl
  cases prepared with
  | bundle b =>
    rw [rebindCommitOne, RebindPrepared.entries]
    generalize commitEntries pac replacement b.entries 0 s = out
    obtain ⟨state, s'⟩ := out
    cases state with
    | complete => exact ⟨_, rfl, hpublish _ _ _⟩
    | none => exact ⟨_, rfl, rfl⟩
    | partly => exact ⟨_, rfl, rfl⟩
    | unknown => exact ⟨_, rfl, rfl⟩
  | plan p =>
    rw [rebindCommitOne, RebindPrepared.entries, commitEntries]
    have hrefused := fun h ↦ congrArg Prod.snd (rebindCommit_refused
      (@rebindCommit_none σ s pac replacement ⟨write, p⟩ h))
    dsimp only at hrefused ⊢
    revert hrefused
    generalize rebindCommit pac write p replacement s = out
    obtain ⟨⟨state, written⟩, s'⟩ := out
    intro hrefused
    cases state with
    | complete => exact ⟨_, rfl, hpublish _ _ _⟩
    | none =>
      obtain rfl : written = 0 := hrefused rfl
      exact ⟨_, rfl, rfl⟩
    | partly => exact ⟨_, rfl, rfl⟩
    | unknown => exact ⟨_, rfl, rfl⟩

/-- After `COMPLETE` every slot of the images holds what the replacement is encoded as for it. -/
theorem commitEntries_complete
    (honest : ∀ entry ∈ entries, ∀ write, entry.write = some write → HonestWriter write)
    (hsep : (slotsOf entries).Pairwise fun a b ↦ WordMemory.Separate a.address b.address)
    (hout : (commitEntries pac replacement entries total s).1 = .complete) :
    ∀ site ∈ slotsOf entries, ∃ value, replacementForSite pac site replacement = some value ∧
      readWord (commitEntries pac replacement entries total s).2.world.mem
      site.address = value := by
  intro site hsite
  obtain ⟨calls, hwrote, hcomplete, -⟩ := commitEntries_wrote pac replacement entries total s
  obtain ⟨hadmitted, hfinished⟩ := hcomplete hout
  obtain ⟨entry, hentry, hmem⟩ := List.mem_flatMap.mp hsite
  obtain ⟨value, hvalue⟩ := Option.isSome_iff_exists.mp ((hadmitted entry hentry).2.2.1 site hmem)
  obtain ⟨t, ht, rfl, ht'⟩ := mem_slotsOf pac replacement hsite
  rw [hvalue, Option.getD_some] at ht'
  have hsep' : ((entries.flatMap (slotTasks pac replacement)).map Task.cell).Pairwise
      (slotCells (σ := σ)).Separate := by
    rw [cells_slotTasks]
    exact hsep
  refine ⟨value, hvalue, ?_⟩
  rw [← ht']
  exact writeAll_holds (hwrote.ran.writeAll_eq hfinished) (honest_slotTasks pac replacement honest)
    hsep' ht

/-- If the counter does not wrap, the report is true. -/
theorem commitEntries_reported
    (honest : ∀ entry ∈ entries, ∀ write, entry.write = some write → HonestWriter write)
    (hsep : (slotsOf entries).Pairwise fun a b ↦ WordMemory.Separate a.address b.address)
    (hwraps : ¬ CounterWraps pac replacement entries s) :
    ∃ calls, Reported pac replacement entries s (commitEntries pac replacement entries 0 s)
      calls := by
  obtain ⟨calls, hwrote, -, hunknown, hpartly, hnone⟩ :=
    commitEntries_wrote pac replacement entries 0 s
  have honest' := honest_slotTasks pac replacement honest
  have hcells := cells_slotTasks pac replacement entries
  have hsep' : ((entries.flatMap (slotTasks pac replacement)).map Task.cell).Pairwise
      (slotCells (σ := σ)).Separate := by
    rw [hcells]
    exact hsep
  have hrefusal : (commitEntries pac replacement entries 0 s).1 = .none →
      ∀ call ∈ calls, call.outcome = .none := by
    intro hout
    obtain ⟨before, ⟨⟨entry, after, w, hsplit, hall, hrefused⟩, hadmitted, hcounter⟩, hfirst⟩ :=
      hnone hout
    by_cases hbefore : before = []
    · exact hfirst hbefore
    · refine absurd ⟨before, entry, after, w, hsplit, hadmitted, hall, hrefused, ?_, ?_⟩ hwraps
      · obtain ⟨e, he⟩ := List.exists_mem_of_ne_nil _ hbefore
        obtain ⟨site, hsite⟩ := List.exists_mem_of_ne_nil _ (hadmitted e he).2.1
        exact List.ne_nil_of_mem (List.mem_flatMap.mpr ⟨e, he, hsite⟩)
      · rw [Nat.zero_add] at hcounter
        exact Nat.dvd_of_mod_eq_zero hcounter
  refine ⟨calls, hwrote.logged, ?_, fun hout ↦ ⟨hrefusal hout, fun site hsite ↦ ?_⟩,
    fun hout site hsite ↦ ?_, fun hout ↦ ?_, hunknown, ?_, hwrote.ran.current,
    fun site hsite hstale ↦ ?_⟩
  · rw [← hcells]
    exact hwrote.ran.cells
  · obtain ⟨t, ht, rfl, -⟩ := mem_slotsOf pac replacement hsite
    exact hwrote.ran.keeps_untouched honest' hsep' (hrefusal hout) ht
  · exact commitEntries_complete honest hsep hout site hsite
  · exact (hpartly hout).resolve_left fun h ↦ h rfl
  · rw [hwrote.sink]
    exact records_foldl calls s.sink
  · obtain ⟨t, ht, rfl, -⟩ := mem_slotsOf pac replacement hsite
    exact hwrote.ran.keeps_stale honest' hsep' ht hstale

/-- If it does, `NONE` is reported of slots that were written. -/
theorem commitEntries_wraps (h : CounterWraps pac replacement entries s) :
    (commitEntries pac replacement entries 0 s).1 = .none ∧
      ∃ calls, (commitEntries pac replacement entries 0 s).2.calls = s.calls ++ calls ∧
        ∃ call ∈ calls, call.outcome = .complete := by
  obtain ⟨before, entry, after, w, rfl, hadmitted, hall, hrefused, hbefore, hcounter⟩ := h
  obtain ⟨s', heq, hwritten⟩ := @commitEntries_written σ s pac replacement before 0
    (entry :: after) w (by decide) hadmitted hall
  obtain ⟨calls, hlogged, hlen, hcomplete⟩ := hwritten.logged
  obtain ⟨calls', hwrote, -⟩ := rebindCommit_wrote pac replacement entry s'
  rw [Nat.zero_add, Nat.mod_eq_zero_of_dvd hcounter, commitEntries] at heq
  rw [← hwritten.world] at hrefused
  have hzero := rebindCommit_refused (hrefused.congr hwritten.required.symm)
  rw [heq, hzero]
  have hpos : 0 < calls.length := by
    rw [hlen]
    exact List.length_pos_of_ne_nil hbefore
  refine ⟨rfl, calls ++ calls', ?_, calls[0], ?_, ?_⟩
  · change (rebindCommit pac entry.write entry.plan replacement s').2.calls = _
    rw [hwrote.logged, hlogged, List.append_assoc]
  · exact List.mem_append_left _ (List.getElem_mem hpos)
  · exact hcomplete _ (List.getElem_mem hpos)

/-- **A commit reports what it did, unless its counter wraps.** -/
theorem rebindCommitOne_reports (pac : Pac) (write : Option (RebindWrite σ))
    (replacement : UIntPtr) (prepared : RebindPrepared σ) (s : RebindState σ)
    (honest : ∀ entry ∈ prepared.entries write, ∀ write, entry.write = some write →
      HonestWriter write)
    (hsep : (slotsOf (prepared.entries write)).Pairwise fun a b ↦
      WordMemory.Separate a.address b.address) :
    ((∃ calls, Reported pac replacement (prepared.entries write) s
        (rebindCommitOne pac write replacement prepared s) calls) ↔
      ¬ CounterWraps pac replacement (prepared.entries write) s) ∧
    ∀ entry ∈ prepared.entries write, ∀ s' : RebindState σ,
      CountsWrites s' (rebindCommit pac entry.write entry.plan replacement s') := by
  obtain ⟨sink, heq, hrecords⟩ := rebindCommitOne_eq pac write replacement prepared s
  refine ⟨⟨fun ⟨calls, hreported⟩ hwraps ↦ ?_, fun hwraps ↦ ?_⟩, fun entry _ s' ↦ ?_⟩
  · obtain ⟨hout, calls', hlogged, call, hcall, hcomplete⟩ := commitEntries_wraps hwraps
    have hsame : calls = calls' := by
      have := hreported.logged
      rw [heq] at this
      exact List.append_cancel_left (this.symm.trans hlogged)
    have hnone := (hreported.none (by rw [heq]; exact hout)).1 call (hsame ▸ hcall)
    rw [hcomplete] at hnone
    cases hnone
  · obtain ⟨calls, h⟩ := commitEntries_reported honest hsep hwraps
    rw [heq]
    exact ⟨calls, h.logged, h.order, h.none, h.complete, h.partly, h.unknown,
      hrecords.trans h.records, h.current, h.stale⟩
  · obtain ⟨calls, hwrote, hjudged, -⟩ := rebindCommit_wrote pac replacement entry s'
    refine ⟨calls, hwrote.logged, ?_⟩
    rw [hjudged.counts, Nat.zero_add]

/-- Fewer than `2 ^ 32` slots cannot wrap the counter. -/
theorem not_counterWraps (h : (slotsOf entries).length < 2 ^ 32) :
    ¬ CounterWraps pac replacement entries s := by
  rintro ⟨before, entry, after, w, rfl, -, -, -, hbefore, hcounter⟩
  have hlen : (slotsOf before).length ≤ (slotsOf (before ++ entry :: after)).length := by
    rw [slotsOf, slotsOf, List.flatMap_append, List.length_append]
    exact Nat.le_add_right _ _
  have := Nat.le_of_dvd (List.length_pos_of_ne_nil hbefore) hcounter
  omega

/-! ### Images whose slots follow one another -/

/-- A writer that stores the value. -/
def storeWriter : RebindWrite Unit := fun a v w ↦ (.complete, { w with mem := writeWord w.mem a v })

theorem storeWriter_honest : HonestWriter storeWriter where
  frame _ v _ _ h := writeWord_outside v h
  none _ _ _ h := by cases h
  complete a v w _ := readWord_writeWord w.mem a v

/-- The slot with a number: a weak import that is not resolved. -/
def slotAt (n : Nat) : RebindSite := ⟨BitVec.ofNat 64 (2 ^ 32 + 8 * n), 0, 0, 0, .zero, true⟩

/-- Thirty-two slots from one on. -/
def imageAt (first : Nat) : RebindBundleEntry Unit where
  write := some storeWriter
  plan := {
    sites := (List.range 32).map fun j ↦ slotAt (first + j)
    fits := by rw [List.length_map, List.length_range]; exact Nat.le_refl _
    originalsAgree := true
    original := 0 }

/-- So many images of thirty-two slots, and one of a single slot. -/
def imageRow (count : Nat) : List (RebindBundleEntry Unit) :=
  (List.range count).map (fun i ↦ imageAt (32 * i)) ++
    [⟨some storeWriter, ⟨[slotAt (32 * count)], Nat.le_add_left 1 31, true, 0⟩⟩]

/-- The last slot was changed since. -/
def rowState (count : Nat) : RebindState Unit :=
  ⟨⟨writeWord (fun _ ↦ 0) (slotAt (32 * count)).address 1, ()⟩, some ⟨none, [], 0⟩, []⟩

theorem slotsOf_images (count : Nat) :
    slotsOf ((List.range count).map fun i ↦ imageAt (32 * i)) =
      (List.range (32 * count)).map slotAt := by
  induction count with
  | zero => rfl
  | succ count ih =>
    rw [slotsOf] at ih ⊢
    rw [List.range_succ, List.map_append, List.flatMap_append, ih, Nat.mul_succ, List.range_add,
      List.map_append, List.map_map]
    exact congrArg _ (List.append_nil _)

theorem slotsOf_imageRow (count : Nat) :
    slotsOf (imageRow count) = (List.range (32 * count + 1)).map slotAt := by
  rw [imageRow, slotsOf, List.flatMap_append, List.range_succ, List.map_append]
  exact congrArg₂ _ (slotsOf_images count) rfl

theorem slotAt_separate {i j : Nat} (hij : i < j) (hj : j ≤ 2 ^ 32) :
    WordMemory.Separate (slotAt i).address (slotAt j).address := by
  simp only [WordMemory.Separate, slotAt]
  bv_omega

theorem imageRow_separate {count : Nat} (hcount : count ≤ 2 ^ 27) :
    (slotsOf (imageRow count)).Pairwise fun a b ↦ WordMemory.Separate a.address b.address := by
  rw [slotsOf_imageRow, List.pairwise_map]
  refine List.pairwise_lt_range.imp_of_mem fun _ hj hij ↦ slotAt_separate hij ?_
  have := List.mem_range.mp hj
  omega

theorem imageRow_honest (count : Nat) : ∀ entry ∈ imageRow count, ∀ write,
    entry.write = some write → HonestWriter write := by
  intro entry hentry write hwrite
  rw [imageRow, List.mem_append, List.mem_map, List.mem_singleton] at hentry
  obtain ⟨i, -, rfl⟩ | rfl := hentry
  · cases hwrite
    exact storeWriter_honest
  · cases hwrite
    exact storeWriter_honest

/-- An unresolved slot takes the replacement as it is. -/
theorem replacementForSite_slotAt (n : Nat) :
    replacementForSite .plain (slotAt n) 0x5000 = some 0x5000 := by
  have : checkedAdjust (0x5000 : UIntPtr) 0 true = some 0x5000 := by decide
  rw [replacementForSite]
  exact congrArg (Option.map _) this

/-- The images before the last one are written, and the last one is refused. -/
theorem imageRow_wraps {count : Nat} (hpos : 0 < count) (hcount : count ≤ 2 ^ 27)
    (hdvd : 2 ^ 32 ∣ 32 * count) :
    CounterWraps .plain 0x5000 (imageRow count) (rowState count) := by
  have hsep := imageRow_separate hcount
  have hsplit : slotsOf (imageRow count) = slotsOf ((List.range count).map fun i ↦
      imageAt (32 * i)) ++ [slotAt (32 * count)] := by
    rw [imageRow, slotsOf, List.flatMap_append]
    rfl
  rw [hsplit, List.pairwise_append] at hsep
  obtain ⟨hfirst, -, hlast⟩ := hsep
  have hlast := fun site hsite ↦ hlast site hsite _ (List.mem_singleton_self _)
  have honest := honest_slotTasks .plain 0x5000 fun entry hentry ↦
    imageRow_honest count entry (List.mem_append_left _ hentry)
  have hcells := cells_slotTasks .plain 0x5000 ((List.range count).map fun i ↦ imageAt (32 * i))
  have htasks : ∀ t ∈ ((List.range count).map fun i ↦ imageAt (32 * i)).flatMap
      (slotTasks .plain 0x5000), t.cell ∈ slotsOf ((List.range count).map fun i ↦
        imageAt (32 * i)) ∧ t.cell.original = 0 ∧ ∀ w, (t.write w).1 = .complete := by
    intro t ht
    obtain ⟨entry, hentry, ht⟩ := List.mem_flatMap.mp ht
    obtain ⟨i, -, rfl⟩ := List.mem_map.mp hentry
    obtain ⟨site, hsite, rfl⟩ := mem_slotTasks.mp ht
    refine ⟨List.mem_flatMap.mpr ⟨_, hentry, hsite⟩, ?_, fun w ↦ rfl⟩
    obtain ⟨j, -, rfl⟩ := List.mem_map.mp hsite
    rfl
  obtain ⟨w, hw⟩ := exists_writeAll (w := (rowState count).world) honest
    (by rw [hcells]; exact hfirst)
    (fun t ht ↦ by
      obtain ⟨hmem, horiginal, -⟩ := htasks t ht
      exact (readWord_writeWord_of_separate 1 (hlast _ hmem)).trans
        ((readWord_zero _).trans horiginal.symm))
    (fun t ht ↦ (htasks t ht).2.2)
  obtain ⟨calls, hran, -⟩ := ran_of_writeAll hw
  have hframe := hran.frame (c := slotAt (32 * count)) honest fun t ht ↦
    WordMemory.Separate.symm (hlast _ (htasks t ht).1)
  refine ⟨_, _, [], w, rfl, fun e he ↦ ?_, hw, .inr (.inl ?_), ?_, ?_⟩
  · obtain ⟨i, -, rfl⟩ := List.mem_map.mp he
    refine ⟨rfl, nofun, fun site hsite ↦ ?_, rfl⟩
    obtain ⟨j, -, rfl⟩ := List.mem_map.mp hsite
    rw [replacementForSite_slotAt]
    rfl
  · change readWord w.mem (slotAt (32 * count)).address ≠ 0
    change readWord w.mem (slotAt (32 * count)).address = readWord _ _ at hframe
    rw [hframe, rowState, readWord_writeWord]
    decide
  · rw [slotsOf_images]
    refine List.ne_nil_of_length_pos ?_
    rw [List.length_map, List.length_range]
    omega
  · rw [slotsOf_images, List.length_map, List.length_range]
    exact hdvd

theorem imageRow_unreported {count : Nat} (hpos : 0 < count) (hcount : count ≤ 2 ^ 27)
    (hdvd : 2 ^ 32 ∣ 32 * count) :
    (rebindCommitOne .plain (some storeWriter) 0x5000 (.bundle ⟨imageRow count, true, 0⟩)
        (rowState count)).1 = .none ∧
      ∃ call ∈ (rebindCommitOne .plain (some storeWriter) 0x5000
        (.bundle ⟨imageRow count, true, 0⟩) (rowState count)).2.calls,
        call.outcome = .complete := by
  obtain ⟨sink, heq, -⟩ := rebindCommitOne_eq .plain (some storeWriter) 0x5000
    (.bundle ⟨imageRow count, true, 0⟩) (rowState count)
  obtain ⟨hnone, calls, hlogged, hcall⟩ := commitEntries_wraps (imageRow_wraps hpos hcount hdvd)
  rw [heq]
  refine ⟨hnone, ?_⟩
  change ∃ call ∈ (commitEntries .plain 0x5000 (imageRow count) 0 (rowState count)).2.calls, _
  rw [hlogged]
  exact hcall

/-- **`NONE` for slots that were written**: of `2 ^ 27` images of thirty-two slots each, all are
written; then the one slot of the last image turns out to be changed. -/
theorem rebindCommitOne_unreported :
    (∀ entry ∈ imageRow (2 ^ 27), ∀ write, entry.write = some write → HonestWriter write) ∧
      ((slotsOf (imageRow (2 ^ 27))).Pairwise fun a b ↦
        WordMemory.Separate a.address b.address) ∧
      (rebindCommitOne .plain (some storeWriter) 0x5000 (.bundle ⟨imageRow (2 ^ 27), true, 0⟩)
        (rowState (2 ^ 27))).1 = .none ∧
      ∃ call ∈ (rebindCommitOne .plain (some storeWriter) 0x5000
        (.bundle ⟨imageRow (2 ^ 27), true, 0⟩) (rowState (2 ^ 27))).2.calls,
        call.outcome = .complete :=
  ⟨imageRow_honest _, imageRow_separate (Nat.le_refl _),
    imageRow_unreported (Nat.two_pow_pos 27) (Nat.le_refl _) ⟨1, by norm_num⟩⟩

/-- Thirty-three slots, the last of them changed. -/
theorem imageRow_reports : ∃ calls, Reported .plain 0x5000 (imageRow 1) (rowState 1)
    (rebindCommitOne .plain (some storeWriter) 0x5000 (.bundle ⟨imageRow 1, true, 0⟩) (rowState 1))
    calls :=
  (rebindCommitOne_reports .plain (some storeWriter) 0x5000 (.bundle ⟨imageRow 1, true, 0⟩)
    (rowState 1) (imageRow_honest 1) (imageRow_separate (by decide))).1.mpr
    (not_counterWraps (by
      have : (slotsOf (imageRow 1)).length = 33 := by
        rw [slotsOf_imageRow, List.length_map, List.length_range]
      exact this ▸ by decide))

end HookKit.Rebind
