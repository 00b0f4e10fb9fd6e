import HookKit.Engines.RebindCommit

/-!
# Where a commit of the rebind engine stops

The replacement's values and the predecessor are checked for all the slots of an image before the
first of them is written; what a slot holds is checked right before it is written.  So a refusal
undoes nothing, but nothing is written at it or behind it.

* `FailsCheck` — an image that is refused as a whole.
* `commitEntries_before_failing`, `commitEntries_before_stale` — what is written in front of it.
* `rebindCommitOne_refusal` — both, for the callback.
* `splitImage_mixed` — the first slot of an image is written, the second is refused.
-/

set_option autoImplicit false

namespace HookKit.Rebind

open WordMemory GuardedWrites

variable {σ : Type} {pac : Pac} {replacement : UIntPtr} {entry : RebindBundleEntry σ}
  {entries before after : List (RebindBundleEntry σ)} {s : RebindState σ}

/-- A slot of the image has no value for the replacement, or another predecessor than the one that
is asked for. -/
def FailsCheck (pac : Pac) (replacement : UIntPtr) (sink : Option RebindSink)
    (entry : RebindBundleEntry σ) : Prop :=
  ∃ site ∈ entry.plan.sites, replacementForSite pac site replacement = none ∨
    ∃ predecessor, required sink = some predecessor ∧ site.callableOriginal ≠ predecessor

/-- Some slots were written, and nothing but these; if there were none, `NONE` is the truth. -/
structure StopsBefore (slots : List RebindSite) (s : RebindState σ)
    (out : Mutation × RebindState σ) (calls : List SlotCall) : Prop where
  incomplete : out.1 ≠ .complete
  within : calls.map Call.cell <+: slots
  untouched : slots = [] → out.1 = .none ∧ out.2.world = s.world

theorem FailsCheck.not_admitted {sink : Option RebindSink}
    (h : FailsCheck pac replacement sink entry) : ¬ Admitted pac replacement sink entry := by
  rintro ⟨-, -, hvalues, hmatch⟩
  obtain ⟨site, hsite, hnone | ⟨predecessor, hrequired, hne⟩⟩ := h
  · have := hvalues site hsite
    rw [hnone] at this
    cases this
  · rw [required] at hrequired
    rw [predecessorMatches, hrequired] at hmatch
    exact hne (of_decide_eq_true (List.all_eq_true.mp hmatch site hsite))

/-- A commit that called no writer left everything as it was. -/
theorem commitEntries_uncalled {calls : List SlotCall}
    (h : (commitEntries pac replacement entries 0 s).2.calls = s.calls ++ calls)
    (hout : (commitEntries pac replacement entries 0 s).1 ≠ .complete) (hcalls : calls = []) :
    (commitEntries pac replacement entries 0 s).1 = .none ∧
      (commitEntries pac replacement entries 0 s).2.world = s.world := by
  obtain ⟨calls', hwrote, -, hunknown, hpartly, -⟩ :=
    commitEntries_wrote pac replacement entries 0 s
  obtain rfl : calls' = [] := (List.append_cancel_left (hwrote.logged.symm.trans h)).trans hcalls
  constructor
  · cases hstate : (commitEntries pac replacement entries 0 s).1 with
    | none => rfl
    | complete => exact absurd hstate hout
    | unknown =>
      obtain ⟨call, hcall, -⟩ := hunknown hstate
      cases hcall
    | partly =>
      obtain hzero | ⟨call, hcall, -⟩ := hpartly hstate
      · exact absurd rfl hzero
      · cases hcall
  · generalize (commitEntries pac replacement entries 0 s).2 = s' at hwrote
    have hran := hwrote.ran
    generalize s'.world = w, entries.flatMap (slotTasks pac replacement) = tasks at hran
    cases hran
    rfl

/-- The images up to one that is not admitted: the slots that are written are in front of it. -/
theorem commitEntries_calls_before (h : ¬ Admitted pac replacement s.sink entry) (total : Nat) :
    ∃ calls, (commitEntries pac replacement (before ++ entry :: after) total s).2.calls =
        s.calls ++ calls ∧ calls.map Call.cell <+: slotsOf before := by
  induction before generalizing total s with
  | nil =>
    rw [List.nil_append, commitEntries, rebindCommit_not_admitted h]
    exact ⟨[], (List.append_nil _).symm, List.nil_prefix⟩
  | cons first before ih =>
    obtain ⟨calls, hwrote, -, hcomplete⟩ := rebindCommit_wrote pac replacement first s
    have hcells : (slotTasks pac replacement first).map Task.cell = first.plan.sites := by
      have := cells_slotTasks pac replacement [first]
      rwa [slotsOf, List.flatMap_singleton, List.flatMap_singleton] at this
    have hfirst : calls.map Call.cell <+: first.plan.sites := hcells ▸ hwrote.ran.cells
    have hstop : calls.map Call.cell <+: slotsOf (first :: before) := by
      rw [slotsOf, List.flatMap_cons]
      exact hfirst.trans (List.prefix_append _ _)
    rw [List.cons_append, commitEntries]
    cases hout : (rebindCommit pac first.write first.plan replacement s).1.1 with
    | complete =>
      have h' : ¬ Admitted pac replacement
          (rebindCommit pac first.write first.plan replacement s).2.sink entry :=
        fun hadmitted ↦ h (hadmitted.congr hwrote.required_eq)
      obtain ⟨calls', hlogged, hbefore⟩ := ih h'
        ((total + (rebindCommit pac first.write first.plan replacement s).1.2) % 2 ^ 32)
      refine ⟨calls ++ calls', ?_, ?_⟩
      · dsimp only
        rw [hlogged, hwrote.logged, List.append_assoc]
      · have hall : calls.map Call.cell = first.plan.sites := by
          refine hfirst.eq_of_length ?_
          rw [List.length_map, ((hcomplete hout).2).length, length_slotTasks]
        rw [List.map_append, hall, slotsOf, List.flatMap_cons]
        exact (List.prefix_append_right_inj _).mpr hbefore
    | unknown => exact ⟨calls, hwrote.logged, hstop⟩
    | partly => exact ⟨calls, hwrote.logged, hstop⟩
    | none => exact ⟨calls, hwrote.logged, hstop⟩

/-- An image that fails a check stops the commit in front of its first slot. -/
theorem commitEntries_before_failing
    (h : FailsCheck pac replacement s.sink entry) :
    ∃ calls, (commitEntries pac replacement (before ++ entry :: after) 0 s).2.calls =
        s.calls ++ calls ∧
      StopsBefore (slotsOf before) s
        (commitEntries pac replacement (before ++ entry :: after) 0 s) calls := by
  obtain ⟨calls, hlogged, hwithin⟩ :=
    @commitEntries_calls_before _ _ _ _ before after _ h.not_admitted 0
  have hout : (commitEntries pac replacement (before ++ entry :: after) 0 s).1 ≠ .complete := by
    intro hout
    obtain ⟨calls', -, hcomplete, -⟩ :=
      commitEntries_wrote pac replacement (before ++ entry :: after) 0 s
    exact h.not_admitted ((hcomplete hout).1 entry (List.mem_append_right _ List.mem_cons_self))
  refine ⟨calls, hlogged, hout, hwithin, fun hnil ↦ commitEntries_uncalled hlogged hout ?_⟩
  rw [hnil] at hwithin
  exact List.map_eq_nil_iff.mp (List.prefix_nil.mp hwithin)

/-- A slot that somebody changed stops the commit in front of itself. -/
theorem commitEntries_before_stale {slots more : List RebindSite} {site : RebindSite}
    (honest : ∀ entry ∈ entries, ∀ write, entry.write = some write → HonestWriter write)
    (hsep : (slotsOf entries).Pairwise fun a b ↦ WordMemory.Separate a.address b.address)
    (hsplit : slotsOf entries = slots ++ site :: more)
    (hstale : readWord s.world.mem site.address ≠ site.original) :
    ∃ calls, (commitEntries pac replacement entries 0 s).2.calls = s.calls ++ calls ∧
      StopsBefore slots s (commitEntries pac replacement entries 0 s) calls := by
  obtain ⟨calls, hwrote, hcomplete, -⟩ := commitEntries_wrote pac replacement entries 0 s
  have honest' := honest_slotTasks pac replacement honest
  have hcells := cells_slotTasks pac replacement entries
  rw [hsplit, List.map_eq_append_iff] at hcells
  obtain ⟨tasks, rest, htasks, hslots, hrest⟩ := hcells
  obtain ⟨t, rest, rfl, hcell, -⟩ := List.map_eq_cons_iff.mp hrest
  have hran := hwrote.ran
  rw [htasks] at hran honest'
  rw [hsplit, List.pairwise_append] at hsep
  have hwithin : calls.map Call.cell <+: slots := by
    rw [← hslots]
    refine hran.before_stale (fun t ht ↦ honest' t (List.mem_append_left _ ht)) ?_ ?_
    · intro t' ht'
      refine WordMemory.Separate.symm ?_
      rw [hcell]
      exact hsep.2.2 _ (hslots ▸ List.mem_map_of_mem ht') _ List.mem_cons_self
    · rw [hcell]
      exact hstale
  have hout : (commitEntries pac replacement entries 0 s).1 ≠ .complete := by
    intro hout
    have hlen := (hcomplete hout).2.length
    have hle := hwithin.length_le
    rw [htasks, List.length_append, List.length_cons] at hlen
    rw [List.length_map, ← hslots, List.length_map] at hle
    omega
  refine ⟨calls, hwrote.logged, hout, hwithin, fun hnil ↦
    commitEntries_uncalled hwrote.logged hout ?_⟩
  rw [hnil] at hwithin
  exact List.map_eq_nil_iff.mp (List.prefix_nil.mp hwithin)

/-- **A refusal writes nothing at it or behind it.**  An image that fails a check stops the commit
in front of its first slot, and a slot that somebody changed stops it in front of itself; if nothing
is in front, nothing at all is written and `NONE` is reported. -/
theorem rebindCommitOne_refusal (pac : Pac) (write : Option (RebindWrite σ))
    (replacement : UIntPtr) (prepared : RebindPrepared σ) (s : RebindState σ) :
    ∃ calls, (rebindCommitOne pac write replacement prepared s).2.calls = s.calls ++ calls ∧
      (∀ before entry after, prepared.entries write = before ++ entry :: after →
        FailsCheck pac replacement s.sink entry →
        StopsBefore (slotsOf before) s (rebindCommitOne pac write replacement prepared s) calls) ∧
      ((∀ entry ∈ prepared.entries write, ∀ write, entry.write = some write →
          HonestWriter write) →
        ((slotsOf (prepared.entries write)).Pairwise fun a b ↦
          WordMemory.Separate a.address b.address) →
        ∀ slots site more, slotsOf (prepared.entries write) = slots ++ site :: more →
          readWord s.world.mem site.address ≠ site.original →
          StopsBefore slots s (rebindCommitOne pac write replacement prepared s) calls) := by
  obtain ⟨sink, heq, -⟩ := rebindCommitOne_eq pac write replacement prepared s
  obtain ⟨calls, hwrote, -⟩ := commitEntries_wrote pac replacement (prepared.entries write) 0 s
  have hsame : ∀ calls', (commitEntries pac replacement (prepared.entries write) 0 s).2.calls =
      s.calls ++ calls' → calls' = calls := fun _ h ↦
    List.append_cancel_left (h.symm.trans hwrote.logged)
  rw [heq]
  refine ⟨calls, hwrote.logged, fun before entry after hsplit hfails ↦ ?_,
    fun honest hsep slots site more hsplit hstale ↦ ?_⟩
  · obtain ⟨calls', hlogged, hstops⟩ :=
      @commitEntries_before_failing _ _ _ _ before after _ hfails
    rw [← hsplit] at hlogged hstops
    obtain rfl := hsame calls' hlogged
    exact ⟨hstops.incomplete, hstops.within, hstops.untouched⟩
  · obtain ⟨calls', hlogged, hstops⟩ := commitEntries_before_stale honest hsep hsplit hstale
    obtain rfl := hsame calls' hlogged
    exact ⟨hstops.incomplete, hstops.within, hstops.untouched⟩

/-! ### An image of two slots, the second of them changed -/

/-- The first two slots, as one image. -/
def splitImage : RebindPrepared Unit :=
  .bundle ⟨[⟨some storeWriter, ⟨[slotAt 0, slotAt 1], by decide, true, 0⟩⟩], true, 0⟩

/-- Somebody wrote into the second slot. -/
def splitState (predecessor : Option UIntPtr) : RebindState Unit :=
  ⟨⟨writeWord (fun _ ↦ 0) (slotAt 1).address 1, ()⟩, some ⟨predecessor, [], 0⟩, []⟩

theorem splitImage_honest : ∀ entry ∈ splitImage.entries none, ∀ write,
    entry.write = some write → HonestWriter write := by
  intro entry hentry write hwrite
  obtain rfl := List.mem_singleton.mp hentry
  cases hwrite
  exact storeWriter_honest

theorem splitImage_separate : (slotsOf (splitImage.entries none)).Pairwise fun a b ↦
    WordMemory.Separate a.address b.address :=
  List.pairwise_pair.mpr (slotAt_separate Nat.zero_lt_one (by decide))

/-- Asked for another predecessor, the image is refused as a whole; otherwise its second slot is. -/
theorem splitImage_refused :
    (∃ calls, StopsBefore [] (splitState (some 7))
      (rebindCommitOne .plain none 0x5000 splitImage (splitState (some 7))) calls) ∧
    ∃ calls, StopsBefore [slotAt 0] (splitState none)
      (rebindCommitOne .plain none 0x5000 splitImage (splitState none)) calls := by
  constructor
  · obtain ⟨calls, -, hfails, -⟩ :=
      rebindCommitOne_refusal .plain none 0x5000 splitImage (splitState (some 7))
    exact ⟨calls, hfails [] _ [] rfl ⟨slotAt 0, List.mem_cons_self, .inr ⟨7, rfl, by decide⟩⟩⟩
  · obtain ⟨calls, -, -, hstale⟩ :=
      rebindCommitOne_refusal .plain none 0x5000 splitImage (splitState none)
    exact ⟨calls, hstale splitImage_honest splitImage_separate [slotAt 0] (slotAt 1) [] rfl
      (by decide +kernel)⟩

/-- **The slot in front of a refusal is written**, and `PARTIAL` is reported. -/
theorem splitImage_mixed :
    (∀ entry ∈ splitImage.entries none, ∀ write, entry.write = some write → HonestWriter write) ∧
      ((slotsOf (splitImage.entries none)).Pairwise fun a b ↦
        WordMemory.Separate a.address b.address) ∧
      slotAt 1 ∈ slotsOf (splitImage.entries none) ∧
      readWord (splitState none).world.mem (slotAt 1).address ≠ (slotAt 1).original ∧
      (rebindCommitOne .plain none 0x5000 splitImage (splitState none)).1 = .partly ∧
      (rebindCommitOne .plain none 0x5000 splitImage (splitState none)).2.calls.map Call.cell =
        [slotAt 0] :=
  ⟨splitImage_honest, splitImage_separate, by decide, by decide +kernel, by decide +kernel,
    by decide +kernel⟩

end HookKit.Rebind
