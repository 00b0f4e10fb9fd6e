import HookKit.Engines.Inline
import HookKit.Engines.RelocDetour

/-!
# Writes that look twice

Three engines write over code and memory in the same way: what will be replaced is read when a hook
is prepared, and the commit writes if it is still there.  Between the two anything may have
happened.

* `WriterContract`, `PageSeams.FreesOwn` — what the headers say of the functions the engines are
  given.
* `relocRecords` — the artifacts of a commit of the relocating engine.
* `Optimistic` — what a commit may amount to: nothing, or the planned write over what was read.
* `mempatchCommit_optimistic`, `inlineCommit_optimistic`, `relocCommit_optimistic` — it is one of
  these.
-/

set_option autoImplicit false

namespace HookKit

open Arm64 MemoryPatch Inline

variable {ε : Type}

/-! ## What the engines are given -/

/-- The address lies in a region. -/
def InRegion (base : Addr) (size : Nat) (x : Addr) : Prop := (x - base).toNat < size

/-- A writer: when it reports that nothing was written nothing was, and it writes nowhere else. -/
structure WriterContract (write : Addr → List Byte → Machine ε → Mutation × Machine ε) : Prop where
  refusal : ∀ a bytes m, (write a bytes m).1 = .none → (write a bytes m).2.mem = m.mem
  region : ∀ a bytes m x, ¬ InRegion a bytes.length x → (write a bytes m).2.mem x = m.mem x

/-- A page that is given back: no byte changes outside of the mapping it was handed out with. -/
def PageSeams.FreesOwn (seams : PageSeams ε) : Prop :=
  ∀ alloc free, seams.alloc = some alloc → seams.freePage = some free → ∀ near m,
    let answer := (alloc relocPageBytes near m).1
    ∀ m' x, ¬ InRegion answer.2.base answer.2.size.toNat x →
      (free answer.1 relocPageBytes m').mem x = m'.mem x

/-! ## The artifacts of the relocating engine -/

/-- The kinds of artifact it records. -/
inductive RelocArtifactKind where
  | trampoline | staticContinuation | targetTextPatch
deriving DecidableEq, Repr

/-- An artifact of `hk_reloc_commit`. -/
structure RelocArtifact where
  kind : RelocArtifactKind
  state : ArtifactState
  effects : Mask
  engineId : StringView
  address : Addr
  size : Nat
  originalBytes : List Byte
  continuationAddress : Addr
  jumpBackDestination : Addr
  mapping : ArtifactMapping
  currentProtection : VmProtection
  originalPointer : Addr
  replacementPointer : Addr
  mechanicallyReversible : Bool
  safeToReverseAfterActivation : Bool
deriving DecidableEq

/-- The artifact of the page. -/
def RelocPlan.pageArtifact (host : Host ε) (plan : RelocPlan) : RelocArtifact where
  kind := if plan.mapping.kind = .staticHookkitSection then .staticContinuation else .trampoline
  state := .committed
  effects := plan.mapping.kind.effect
  engineId := ⟨some "inline-relocating", 17⟩
  address := plan.trampoline
  size := plan.trampolineSize
  originalBytes := []
  continuationAddress := host.makeCallable plan.originalEntry
  jumpBackDestination := plan.address + BitVec.ofNat 64 plan.patchSize
  mapping := plan.mapping
  currentProtection := ⟨true, false, true⟩
  originalPointer := 0
  replacementPointer := 0
  mechanicallyReversible := false
  safeToReverseAfterActivation := false

/-- The artifact of the entry. -/
def RelocPlan.entryArtifact (host : Host ε) (plan : RelocPlan) (mutation : Mutation) :
    RelocArtifact where
  kind := .targetTextPatch
  state := if mutation = .complete then .committed else .partiallyApplied
  effects := effectTargetTextMutation
  engineId := ⟨some "inline-relocating", 17⟩
  address := plan.address
  size := plan.patchSize
  originalBytes := plan.original
  continuationAddress := 0
  jumpBackDestination := 0
  mapping := .zero
  currentProtection := ⟨false, false, false⟩
  originalPointer := host.makeCallable plan.originalEntry
  replacementPointer := plan.replacement
  mechanicallyReversible := true
  safeToReverseAfterActivation := decide (mutation = .complete)

/-- What `hk_reloc_commit` records, for the mutation that it answers.  A page that cannot be given
back is recorded also where nothing was written. -/
def relocRecords (host : Host ε) (write : Option (RelocWrite ε)) (seams : PageSeams ε)
    (plan : RelocPlan) (mutation : Mutation) : List RelocArtifact :=
  if plan.activated ∨ write.isNone ∨ !plan.captured ∨ plan.address = 0 ∨ plan.patchSize = 0 ∨
      plan.patchSize > relocMaxPatch then []
  else if mutation = .none then
    if seams.freePage.isNone ∧ plan.trampoline ≠ 0 then [plan.pageArtifact host] else []
  else [plan.pageArtifact host, plan.entryArtifact host mutation]

/-! ## What a commit amounts to -/

/-- A region and its bytes. -/
structure CapturedRegion where
  address : Addr
  bytes : List Byte
deriving DecidableEq

/-- The region of an artifact with original bytes. -/
def MemoryPatch.MemoryArtifact.region (a : MemoryArtifact) : CapturedRegion :=
    ⟨a.address, a.originalBytes⟩

/-- The regions of the artifacts about an entry. -/
def patchedRegions (records : List RelocArtifact) : List CapturedRegion :=
  (records.filter (·.kind = .targetTextPatch)).map fun a ↦ ⟨a.address, a.originalBytes⟩

/-- A commit of a patch over a region whose bytes were captured, from the memory at its check to the
memory after it; `own` is what belongs to the engine alone, and `recorded` are the originals that it
records. -/
inductive Optimistic (write : Addr → List Byte → Machine ε → Mutation × Machine ε)
    (captured : CapturedRegion)
    (patch : List Byte) (own : Addr → Prop) (m : Machine ε) (mutation : Mutation) (m' : Machine ε)
    (recorded : List CapturedRegion) : Prop where
  | refused (outcome : mutation = .none) (nothing : recorded = [])
    (unchanged : ∀ x, ¬ own x → m'.mem x = m.mem x)
  | wrote (outcome : mutation ≠ .none)
    (check : m.readBytes captured.address captured.bytes.length = captured.bytes)
    (whole : patch.length = captured.bytes.length)
    (call : (mutation, m') = write captured.address patch m)
    (original : recorded = [captured])
    (unchanged : ∀ x, ¬ InRegion captured.address captured.bytes.length x → m'.mem x = m.mem x)

variable {write : Addr → List Byte → Machine ε → Mutation × Machine ε}

theorem length_readBytes (m : Machine ε) (a : Addr) (count : Nat) :
    (m.readBytes a count).length = count := by
  rw [Machine.readBytes, List.length_map, List.length_range]

/-- The writer has been called with the planned patch. -/
theorem Optimistic.of_call (hwrite : WriterContract write) {captured : CapturedRegion}
    {patch : List Byte}
    {own : Addr → Prop} {m : Machine ε}
    (hcheck : m.readBytes captured.address captured.bytes.length = captured.bytes)
    (hwhole : patch.length = captured.bytes.length) {recorded : List CapturedRegion}
    (hrecorded : recorded = if (write captured.address patch m).1 = .none then [] else [captured]) :
    Optimistic write captured patch own m (write captured.address patch m).1
      (write captured.address patch m).2 recorded := by
  by_cases hnone : (write captured.address patch m).1 = .none
  · rw [if_pos hnone] at hrecorded
    exact .refused hnone hrecorded fun x _ ↦ congrFun (hwrite.refusal _ _ _ hnone) x
  · rw [if_neg hnone] at hrecorded
    refine .wrote hnone hcheck hwhole rfl hrecorded fun x hx ↦ ?_
    exact hwrite.region _ _ _ _ (by rwa [hwhole])

/-- What a commit of the memory or of the inline engine has to be, with the artifacts it records. -/
def OptimisticCommit (write : Addr → List Byte → Machine ε → Mutation × Machine ε)
    (captured : CapturedRegion) (patch : List Byte) (s : PatchState ε)
    (out : Mutation × PatchState ε) : Prop :=
  ∃ records, out.2.sink = s.sink.map (· ++ records) ∧
    Optimistic write captured patch (fun _ ↦ False) s.machine out.1 out.2.machine
      (records.map (·.region))

/-- A commit that has called the writer and recorded what the call amounts to. -/
theorem OptimisticCommit.of_call (hwrite : WriterContract write) {captured : CapturedRegion}
    {patch : List Byte} {s : PatchState ε} {out : Mutation × PatchState ε}
    {artifact : MemoryArtifact}
    (hcheck : s.machine.readBytes captured.address captured.bytes.length = captured.bytes)
    (hwhole : patch.length = captured.bytes.length)
    (hcall : (out.1, out.2.machine) = write captured.address patch s.machine)
    (hsink : out.2.sink = if out.1 = .none then s.sink else s.sink.map (· ++ [artifact]))
    (hregion : artifact.region = captured) : OptimisticCommit write captured patch s out := by
  have hanswer : out.1 = (write captured.address patch s.machine).1 := congrArg Prod.fst hcall
  have hmachine : out.2.machine = (write captured.address patch s.machine).2 :=
    congrArg Prod.snd hcall
  refine ⟨if out.1 = .none then [] else [artifact], ?_, ?_⟩
  · rw [hsink]
    split <;> simp
  · rw [hanswer, hmachine]
    refine .of_call hwrite hcheck hwhole ?_
    split
    · rfl
    · rw [List.map_singleton, hregion]

/-- A commit that has called nothing. -/
theorem OptimisticCommit.refused {captured : CapturedRegion}
    {patch : List Byte} {s : PatchState ε} :
    OptimisticCommit write captured patch s (.none, s) :=
  ⟨[], by simp, .refused rfl rfl fun _ _ ↦ rfl⟩

/-! ## The memory engine -/

/-- A preparation that succeeds has captured the region. -/
theorem mempatchPrepare_spec {m : Machine ε} {address : Addr} {size : Nat}
    {expected mask : BytesView}
    {plan : MempatchPlan} (h : mempatchPrepare m address size expected mask = (.ok, plan)) :
    plan = ⟨m.readBytes address size, size, true⟩ := by
  rw [mempatchPrepare] at h
  split at h
  · cases h
  split at h
  · cases h
  split at h
  · cases h
  dsimp only at h
  split at h
  · cases h
    rfl
  · split at h
    · cases h
      rfl
    · cases h

/-- The bytes of a view. -/
def BytesView.bytes (view : BytesView) : List Byte := (view.data.getD []).take view.size

/-- There are as many bytes behind a view as it says. -/
def BytesView.Whole (view : BytesView) : Prop :=
  ∀ bytes, view.data = some bytes → view.size ≤ bytes.length

theorem mempatchCommit_optimistic (hwrite : WriterContract write) {m : Machine ε} {address : Addr}
    {size : Nat} {expected mask replacement : BytesView} {plan : MempatchPlan}
    (hprepare : mempatchPrepare m address size expected mask = (.ok, plan))
    (hreplacement : replacement.Whole) (s : PatchState ε) :
    OptimisticCommit write ⟨address, m.readBytes address size⟩ replacement.bytes s
      (mempatchCommit address plan replacement (some write) s) := by
  rw [mempatchPrepare_spec hprepare]
  unfold mempatchCommit
  split
  · rename_i w bytes hw hdata
    cases hw
    dsimp only
    split
    · exact .refused
    split
    · exact .refused
    rename_i hsize
    split
    · exact .refused
    rename_i hcheck
    rw [not_not] at hsize hcheck
    have hbytes : replacement.bytes = bytes.take size := by
      rw [BytesView.bytes, hdata, hsize]
      rfl
    have hlength : (bytes.take size).length = size := by
      rw [List.length_take, ← hsize]
      exact Nat.min_eq_left (hreplacement bytes hdata)
    rw [hbytes]
    refine .of_call hwrite ?_ ?_ rfl rfl rfl
    · rwa [length_readBytes]
    · rw [hlength, length_readBytes]
  · exact .refused

/-! ## The terminal engine -/

theorem inlineCommit_optimistic (hwrite : WriterContract write) {m : Machine ε}
    {target replacement : Addr} {requirement : OriginalRequirement} {expected : Option (List Byte)}
    {plan : InlinePlan}
    (hprepare : inlinePrepare m target replacement requirement expected = (.ok, plan))
    (s : PatchState ε) :
    OptimisticCommit write ⟨target, m.readBytes target (branchSize target replacement)⟩
      (bytesOfWords (emitBranch target replacement)) s (inlineCommit plan (some write) s) := by
  obtain ⟨-, rfl⟩ := inlinePrepare_spec hprepare
  rw [inlineCommit]
  dsimp only
  split
  · exact .refused
  split
  · exact .refused
  rename_i hcheck
  rw [not_not] at hcheck
  refine .of_call hwrite ?_ ?_ rfl rfl rfl
  · rwa [length_readBytes]
  · rw [length_readBytes, length_bytesOfWords, length_emitBranch]

/-! ## The relocating engine -/

/-- What a preparation that succeeds has captured: the entry, as it was once there was a page. -/
structure RelocCaptured (target : Addr) (seams : PageSeams ε) (p : Process ε)
    (plan : RelocPlan) (captured : Machine ε) : Prop where
  address : plan.address = target
  original : plan.original = captured.readBytes target plan.patchSize
  size : plan.patchSize ≤ relocMaxPatch
  whole : plan.patch.length = plan.patchSize
  fresh : plan.activated = false
  /-- The page and its mapping are those that the allocator has handed out. -/
  page : ∃ alloc, seams.alloc = some alloc ∧
    (alloc relocPageBytes target p.machine).2 = captured ∧
    plan.trampoline = (alloc relocPageBytes target p.machine).1.1 ∧
    plan.trampolineSize = relocPageBytes ∧
    plan.mapping.base = (alloc relocPageBytes target p.machine).1.2.base ∧
    plan.mapping.size = (alloc relocPageBytes target p.machine).1.2.size

theorem relocBuild_captured {target replacement page : Addr} {expected : Option (List Byte)}
    {sealPage : Addr → Nat → Machine ε → Bool × Machine ε} {seams : PageSeams ε}
    {mapping : ArtifactMapping} {plan : RelocPlan} {p p' : Process ε}
    (h : relocBuild target replacement 0 expected sealPage seams page mapping p = (.ok, plan, p')) :
    plan.address = target ∧ plan.original = p.machine.readBytes target plan.patchSize ∧
      plan.patchSize ≤ relocMaxPatch ∧ plan.activated = false ∧ plan.trampoline = page ∧
      plan.trampolineSize = relocPageBytes ∧ plan.mapping.base = mapping.base ∧
      plan.mapping.size = mapping.size := by
  rw [relocBuild] at h
  dsimp only at h
  split at h
  · exact (relocReleaseAndFail_status (by decide) h).elim
  rename_i hsize
  iterate 4
    split at h
    · exact (relocReleaseAndFail_status (by decide) h).elim
  split at h
  · exact (relocReleaseAndFail_status (by decide) h).elim
  rw [if_pos rfl] at h
  split at h
  · exact (relocReleaseAndFail_status (by decide) h).elim
  split at h
  · exact (relocReleaseAndFail_status (by decide) h).elim
  rw [if_pos rfl] at h
  split at h
  · exact (relocReleaseAndFail_status (by decide) h).elim
  cases h
  exact ⟨rfl, rfl, by push Not at hsize; exact hsize.2, rfl, rfl, rfl, rfl, rfl⟩

theorem relocPrepare_captured {target replacement : Addr} {expected : Option (List Byte)}
    {seams : PageSeams ε} {p p' : Process ε} {plan : RelocPlan}
    (h : relocPrepare target replacement expected seams p = (.ok, plan, p')) :
    ∃ captured, RelocCaptured target seams p plan captured := by
  rw [relocPrepare, relocPrepareWith] at h
  split at h
  · rename_i alloc sealPage halloc hseal
    iterate 3
      split at h
      · cases h
    obtain ⟨hanswer, hmachine⟩ := allocPage_answer alloc target p
    generalize PageSeams.allocPage alloc target p = allocated at h hanswer hmachine
    obtain ⟨⟨page, mapping⟩, p₁⟩ := allocated
    dsimp only at h hanswer hmachine
    split at h
    · exact (relocReleaseAndFail_status (by decide) h).elim
    · have hbuilt := relocBuild_spec h
      obtain ⟨haddress, horiginal, hsize, hfresh, hpage, hpageSize, hbase, hmapping⟩ :=
        relocBuild_captured h
      refine ⟨p₁.machine, haddress, horiginal, hsize, ?_, hfresh, alloc, halloc, hmachine.symm, ?_⟩
      · rw [hbuilt.patch, length_bytesOfWords, length_emitBranch, hbuilt.patchSize,
          ← (choosePatch_hook target replacement page).1]
      · rw [← hanswer]
        exact ⟨hpage, hpageSize, hbase, hmapping⟩
  · cases h

/-- Giving the page back changes no byte but the engine's own. -/
theorem giveBack_unchanged {target : Addr} {seams : PageSeams ε} (hfrees : seams.FreesOwn)
    {p₀ p : Process ε} {plan : RelocPlan} {captured : Machine ε}
    (hplan : RelocCaptured target seams p₀ plan captured) {x : Addr}
    (hx : ¬ InRegion plan.mapping.base plan.mapping.size.toNat x) :
    (seams.giveBack plan.trampoline plan.trampolineSize p).machine.mem x = p.machine.mem x := by
  obtain ⟨alloc, halloc, -, hpage, hsize, hbase, hmapping⟩ := hplan.page
  rw [PageSeams.giveBack]
  split
  · rfl
  · rename_i free hfree
    rw [hbase, hmapping] at hx
    rw [hpage, hsize]
    exact hfrees alloc free halloc hfree target p₀.machine p.machine x hx

/-- Nothing is recorded of the entry unless it may have been written. -/
theorem patchedRegions_none (host : Host ε) (write : Option (RelocWrite ε)) (seams : PageSeams ε)
    (plan : RelocPlan) : patchedRegions (relocRecords host write seams plan .none) = [] := by
  have hpage : (plan.pageArtifact host).kind ≠ .targetTextPatch := by
    rw [RelocPlan.pageArtifact]
    dsimp only
    split <;> nofun
  rw [relocRecords, patchedRegions]
  split
  · rfl
  · rw [if_pos rfl]
    split
    · rw [List.filter_cons_of_neg (by simpa using hpage)]
      rfl
    · rfl

theorem patchedRegions_written (host : Host ε) (write : RelocWrite ε) (seams : PageSeams ε)
    {plan : RelocPlan} {mutation : Mutation} (hmutation : mutation ≠ .none)
    (hfresh : plan.activated = false)
    (hready : ¬ (!plan.captured ∨ plan.address = 0 ∨ plan.patchSize = 0 ∨
      plan.patchSize > relocMaxPatch)) :
    patchedRegions (relocRecords host (some write) seams plan mutation) =
      [⟨plan.address, plan.original⟩] := by
  have hpage : (plan.pageArtifact host).kind ≠ .targetTextPatch := by
    rw [RelocPlan.pageArtifact]
    dsimp only
    split <;> nofun
  rw [relocRecords, if_neg (by simpa [hfresh] using hready), if_neg hmutation, patchedRegions,
    List.filter_cons_of_neg (by simpa using hpage)]
  rfl

theorem relocCommit_optimistic (hwrite : WriterContract write) (host : Host ε)
    {target : Addr} {seams : PageSeams ε} (hfrees : seams.FreesOwn) {p₀ : Process ε}
    {plan : RelocPlan} {captured : Machine ε} (hplan : RelocCaptured target seams p₀ plan captured)
    (p : Process ε) :
    let out := relocCommit (some write) seams plan p
    Optimistic write ⟨target, captured.readBytes target plan.patchSize⟩ plan.patch
      (InRegion plan.mapping.base plan.mapping.size.toNat) p.machine out.1 out.2.2.machine
      (patchedRegions (relocRecords host (some write) seams plan out.1)) := by
  intro out
  -- what a refusal leaves, after a call of the writer that has written nothing or without one
  have hrefused : ∀ p' : Process ε, p'.machine.mem = p.machine.mem →
      ∀ p'' : Process ε, p'' = p' ∨ p'' = seams.giveBack plan.trampoline plan.trampolineSize p' →
        Optimistic write ⟨target, captured.readBytes target plan.patchSize⟩ plan.patch
          (InRegion plan.mapping.base plan.mapping.size.toNat) p.machine .none p''.machine
          (patchedRegions (relocRecords host (some write) seams plan .none)) := by
    intro p' hmem p'' hp''
    refine .refused rfl (patchedRegions_none host _ seams plan) fun x hx ↦ ?_
    obtain rfl | rfl := hp''
    · rw [hmem]
    · rw [giveBack_unchanged hfrees hplan hx, hmem]
  dsimp only [out]
  rw [relocCommit, if_neg (by rw [hplan.fresh]; decide)]
  dsimp only
  split
  · exact hrefused p rfl p (.inl rfl)
  · rename_i hready
    by_cases hcheck : p.machine.readBytes plan.address plan.patchSize = plan.original
    · rw [if_pos hcheck]
      have hnothing := hwrite.refusal plan.address plan.patch p.machine
      have hcalled := @Optimistic.of_call ε write hwrite
        ⟨target, captured.readBytes target plan.patchSize⟩ plan.patch
        (InRegion plan.mapping.base plan.mapping.size.toNat) p.machine
        (by rw [length_readBytes, ← hplan.original, ← hplan.address, hcheck])
        (by rw [length_readBytes, hplan.whole])
      rw [Process.run]
      rw [← hplan.address] at hcalled ⊢
      generalize write plan.address plan.patch p.machine = answer at hnothing hcalled
      obtain ⟨mutation, m'⟩ := answer
      dsimp only at hnothing hcalled ⊢
      by_cases hnone : mutation = .none
      · subst hnone
        rw [if_pos rfl, hplan.address]
        split
        · exact hrefused (.log ⟨m', p.history⟩ _) (hnothing rfl) _ (.inr rfl)
        · exact hrefused (.log ⟨m', p.history⟩ _) (hnothing rfl) _ (.inl rfl)
      · rw [if_neg hnone]
        refine hcalled ?_
        rw [if_neg hnone, patchedRegions_written host write seams hnone hplan.fresh hready,
          hplan.original, hplan.address]
    · rw [if_neg hcheck]
      dsimp only
      rw [if_pos rfl]
      split
      · exact hrefused p rfl _ (.inr rfl)
      · exact hrefused p rfl p (.inl rfl)

/-! ## All three -/

/-- **A commit changes nothing, or it writes what is planned over what was captured**, whatever has
happened to the memory since it was prepared and whatever the writer answers. -/
theorem commits_optimistic (hwrite : WriterContract write) :
    (∀ (m : Machine ε) (address : Addr) (size : Nat) (expected mask replacement : BytesView)
        (plan : MempatchPlan) (s : PatchState ε),
      mempatchPrepare m address size expected mask = (.ok, plan) → replacement.Whole →
      OptimisticCommit write ⟨address, m.readBytes address size⟩ replacement.bytes s
        (mempatchCommit address plan replacement (some write) s)) ∧
    (∀ (m : Machine ε) (target replacement : Addr) (requirement : OriginalRequirement)
        (expected : Option (List Byte)) (plan : InlinePlan) (s : PatchState ε),
      inlinePrepare m target replacement requirement expected = (.ok, plan) →
      OptimisticCommit write ⟨target, m.readBytes target (branchSize target replacement)⟩
        (bytesOfWords (emitBranch target replacement)) s (inlineCommit plan (some write) s)) ∧
    (∀ (host : Host ε) (target replacement : Addr) (expected : Option (List Byte))
        (seams : PageSeams ε) (p₀ p₁ : Process ε) (plan : RelocPlan), seams.FreesOwn →
      relocPrepare target replacement expected seams p₀ = (.ok, plan, p₁) →
      ∃ captured, RelocCaptured target seams p₀ plan captured ∧ ∀ p,
        let out := relocCommit (some write) seams plan p
        Optimistic write ⟨target, captured.readBytes target plan.patchSize⟩ plan.patch
          (InRegion plan.mapping.base plan.mapping.size.toNat) p.machine out.1 out.2.2.machine
          (patchedRegions (relocRecords host (some write) seams plan out.1))) := by
  refine ⟨fun m address size expected mask replacement plan s hprepare hreplacement ↦
      mempatchCommit_optimistic hwrite hprepare hreplacement s,
    fun m target replacement requirement expected plan s hprepare ↦
      inlineCommit_optimistic hwrite hprepare s,
    fun host target replacement expected seams p₀ p₁ plan hfrees hprepare ↦ ?_⟩
  obtain ⟨captured, hplan⟩ := relocPrepare_captured hprepare
  exact ⟨captured, hplan, relocCommit_optimistic hwrite host hfrees hplan⟩

/-- A writer that stores, and then may not be able to restore the protection. -/
def storing (outcome : Mutation) (a : Addr) (bytes : List Byte) (m : Machine Unit) :
    Mutation × Machine Unit :=
  if outcome = .none then (.none, m) else (outcome, m.store a bytes)

theorem storing_contract (outcome : Mutation) : WriterContract (storing outcome) where
  refusal a bytes m h := by
    rw [storing] at h ⊢
    split at h
    · rw [if_pos ‹_›]
    · exact absurd h ‹_›
  region a bytes m x hx := by
    rw [storing]
    split
    · rfl
    · exact Machine.store_other m (Nat.not_lt.mp hx)

theorem fixedPage_freesOwn (page : Addr) : (fixedPage page).FreesOwn := by
  intro alloc free _ hfree near m answer m' x _
  cases hfree
  rfl

/-- One hook of each engine, with a writer that cannot restore the protection. -/
theorem commits_optimistic_sample :
    let s : PatchState Unit := ⟨nopMachine, some [], []⟩
    (OptimisticCommit (storing .unknown) ⟨0x1000, nopMachine.readBytes 0x1000 4⟩ [1, 2, 3, 4] s
      (mempatchCommit 0x1000 ⟨nopMachine.readBytes 0x1000 4, 4, true⟩ ⟨some [1, 2, 3, 4], 4⟩
        (some (storing .unknown)) s)) ∧
    (∃ plan, inlinePrepare nopMachine 0x1000 0x2000 .none none = (.ok, plan) ∧
      OptimisticCommit (storing .unknown) ⟨0x1000, nopMachine.readBytes 0x1000 4⟩
        (bytesOfWords (emitBranch 0x1000 0x2000)) s
        (inlineCommit plan (some (storing .unknown)) s)) ∧
    (∃ plan p₁, relocPrepare 0x1000 0x7000000000 none (fixedPage 0x4000) ⟨nopMachine, []⟩ =
        (.ok, plan, p₁) ∧
      ∃ captured, RelocCaptured 0x1000 (fixedPage 0x4000) ⟨nopMachine, []⟩ plan captured) := by
  intro s
  obtain ⟨hmemory, hinline, hreloc⟩ := commits_optimistic (storing_contract .unknown)
  refine ⟨hmemory nopMachine 0x1000 4 ⟨none, 0⟩ ⟨none, 0⟩ ⟨some [1, 2, 3, 4], 4⟩ _ s ?_ ?_, ?_, ?_⟩
  · decide +kernel
  · rintro _ ⟨⟩
    exact le_rfl
  · have hstatus : (inlinePrepare nopMachine 0x1000 0x2000 .none none).1 = .ok := by decide +kernel
    exact ⟨_, Prod.ext hstatus rfl,
      hinline nopMachine 0x1000 0x2000 .none none _ s (Prod.ext hstatus rfl)⟩
  · have hstatus : (relocPrepare 0x1000 0x7000000000 none (fixedPage 0x4000)
        ⟨nopMachine, []⟩).1 = .ok := by decide +kernel
    obtain ⟨captured, hplan, -⟩ := hreloc plainHost 0x1000 0x7000000000 none (fixedPage 0x4000)
      ⟨nopMachine, []⟩ _ _ (fixedPage_freesOwn 0x4000) (Prod.ext hstatus rfl)
    exact ⟨_, _, Prod.ext hstatus rfl, captured, hplan⟩

end HookKit
