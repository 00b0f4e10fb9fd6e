import HookKit.Engines.RebindChain
import HookKit.Engines.RebindReaders

/-!
# The caches of the rebind engine

`prepare_file_chains` keeps the last files it has loaded, and the sites of the last symbols it was
asked for.  A file is checked against the loaded image only when it is loaded; what is cached of it
is right for as long as no other image is loaded from the path at the base.

* `RebindCall`, `RebindCall.Keeps` — a preparation, and an image that has not been replaced.
* `addSites_replay` — adding the sites of a plan again is adding the uses they come from.
* `RebindCaches.Valid` — every entry is what a call of the history has loaded or found.
* `rebindPrepareWithLookup_uncached` — then every call answers as it does with empty caches.
-/

set_option autoImplicit false

namespace HookKit

open Checked Chained CachePatches LittleEndian Rebind

variable (pac : Pac)

/-! ## Adding sites again -/

section Replay

variable {pac} {mem : UIntPtr → Byte} {uses : List SiteUse} {plan plan' again : RebindPlan}

/-- Plans with the same uses have a site at the same addresses. -/
theorem find?_of_uses (h : again.sites.map RebindSite.use = plan.sites.map RebindSite.use)
    (address : UIntPtr) :
    (again.sites.find? fun site ↦ site.address = address).map RebindSite.use =
      (plan.sites.find? fun site ↦ site.address = address).map RebindSite.use := by
  have hfind : ∀ sites : List RebindSite,
      (sites.find? fun site ↦ site.address = address).map RebindSite.use =
        (sites.map RebindSite.use).find? fun use ↦ use.address = address := by
    intro sites
    rw [List.find?_map]
    rfl
  rw [hfind, hfind, h]

/-- A use of a slot that is there already is one in every plan with the same uses. -/
theorem addSite_known {use : SiteUse} {existing : RebindSite}
    (hfind : plan.sites.find? (fun site ↦ site.address = use.address) = some existing)
    (hsame : existing.schema = use.schema ∧ existing.addend = use.addend)
    (h : again.sites.map RebindSite.use = plan.sites.map RebindSite.use)
    (mem : UIntPtr → Byte) : addSite pac mem again use = (.ok, again) := by
  have hagain := find?_of_uses h use.address
  rw [hfind] at hagain
  obtain ⟨existing', hfind', huse⟩ := Option.map_eq_some_iff.mp hagain
  have hschema : existing'.schema = existing.schema := congrArg SiteUse.schema huse
  have haddend : existing'.addend = existing.addend := congrArg SiteUse.addend huse
  rw [addSite, hfind']
  dsimp only
  rw [if_pos ⟨hschema.trans hsame.1, haddend.trans hsame.2⟩]

/-- **Replaying.**  Once some uses have been added without an error, the sites that were new can be
added in their place, in every memory. -/
theorem addSites_replay (h : addSites pac mem true uses plan = ([], plan')) :
    ∃ added, plan'.sites.map RebindSite.use = plan.sites.map RebindSite.use ++ added ∧
      ∀ mem' again, again.sites.map RebindSite.use = plan.sites.map RebindSite.use →
        addSites pac mem' true added again = addSites pac mem' true uses again := by
  induction uses generalizing plan with
  | nil =>
    cases h
    exact ⟨[], (List.append_nil _).symm, fun _ _ _ ↦ rfl⟩
  | cons use rest ih =>
    obtain ⟨mid, hfirst, hrest⟩ := addSites_cons h
    obtain ⟨added, hadded, hreplay⟩ := ih hrest
    obtain ⟨existing, hfind, hsame, rfl⟩ | ⟨hfind, -, site, rfl, hsites⟩ := addSite_ok hfirst
    · refine ⟨added, hadded, fun mem' again hagain ↦ ?_⟩
      rw [hreplay mem' again hagain, addSites, addSite_known hfind hsame hagain mem']
      rfl
    · have hmid : mid.sites.map RebindSite.use = plan.sites.map RebindSite.use ++ [useOf site] := by
        rw [hsites, List.map_append]
        rfl
      refine ⟨useOf site :: added, ?_, fun mem' again hagain ↦ ?_⟩
      · rw [hadded, hmid, List.append_assoc]
        rfl
      · rw [addSites, addSites]
        rcases hadd : addSite pac mem' again (useOf site) with ⟨status, again'⟩
        by_cases hok : status = .ok
        · subst hok
          have hnew : again'.sites.map RebindSite.use = mid.sites.map RebindSite.use := by
            have hnone := find?_of_uses hagain (useOf site).address
            rw [hfind] at hnone
            obtain ⟨existing, hfind', -⟩ | ⟨-, -, site', huse, hsites'⟩ := addSite_ok hadd
            · rw [hfind'] at hnone
              cases hnone
            · rw [hmid, hsites', List.map_append, hagain, ← huse]
              rfl
          exact hreplay mem' again' hnew
        · rw [if_neg hok, if_neg hok]
          rfl

end Replay

/-- Adding some sites comes to the same as adding some uses. -/
def Replays (uses sites : List SiteUse) : Prop :=
  ∀ mem, addSites pac mem true sites .empty = addSites pac mem true uses .empty

/-- A verdict that is cached comes of uses that were all added, and of all uses. -/
theorem siteVerdict_found {errors : List AddSiteStatus} {plan : RebindPlan} {ended : RebindStatus}
    (h : (siteVerdict (errors, plan) ended).isFound = true) (herrors : .ok ∉ errors)
    (hended : ended ≠ .notFound) : errors = [] ∧ ended = .ok := by
  rw [siteVerdict] at h
  split at h
  · cases h
  split at h
  · cases h
  split at h
  · cases h
  rename_i hoverflow hpacMismatch hmalformed
  have hnone : errors = [] := by
    rw [List.eq_nil_iff_forall_not_mem]
    intro error herror
    cases error with
    | ok => exact herrors herror
    | malformed => exact hmalformed herror
    | overflow => exact hoverflow herror
    | pacMismatch => exact hpacMismatch herror
  split at h
  · cases ended <;> simp_all [RebindStatus.isFound]
  · rename_i hok
    exact ⟨hnone, not_not.mp hok⟩

/-- What is cached of a symbol is what its file names. -/
theorem parseChains_replays {mem : UIntPtr → Byte} {target : RebindTarget}
    {candidates : List CString} {chains : LoadedChains} {answer : RebindStatus × RebindPlan}
    (h : parseChains pac mem target candidates chains .empty = some answer)
    (hfound : answer.1.isFound = true) :
    ∃ uses, chainsUses target candidates chains = some (uses, .ok) ∧
      Replays pac uses (answer.2.sites.map RebindSite.use) := by
  rw [parseChains_eq] at h
  obtain ⟨⟨uses, ended⟩, huses, hanswer⟩ := Option.map_eq_some_iff.mp h
  have hended : ended ≠ .notFound := by
    obtain ⟨⟨chained, binds⟩, -, hbinds⟩ := Option.bind_eq_some_iff.mp huses
    exact bindUses_ended hbinds
  have herrors := addSites_errors pac mem true uses .empty
  rcases hadded : addSites pac mem true uses .empty with ⟨errors, plan⟩
  simp only [hadded] at hanswer herrors
  subst hanswer
  obtain ⟨rfl, rfl⟩ := siteVerdict_found hfound herrors hended
  obtain ⟨added, hsites, hreplay⟩ := addSites_replay hadded
  refine ⟨uses, huses, fun mem' ↦ ?_⟩
  rw [hsites]
  exact hreplay mem' .empty rfl

/-! ## Calls -/

/-- A call of `hk_rebind_prepare_with_lookup`. -/
structure RebindCall where
  env : RebindEnv
  target : RebindTarget
  symbolName : CString
  convention : NameConvention

namespace RebindCall

/-- The answer to a call, and what it leaves behind. -/
def run (c : RebindCall) (p : RebindProcess) :
    Option ((RebindStatus × RebindPlan) × RebindProcess) :=
  rebindPrepareWithLookup pac c.env c.target c.symbolName c.convention p

/-- The header of the image of a call. -/
def peek (c : RebindCall) : Option (Except MachO.MachoStatus MachO.MachoHeader) :=
  MachO.peekHeader (readRange c.env.mem c.target.imageBase MachO.headerSize)

/-- What the file of the image of a call is cached under. -/
def place (c : RebindCall) : Option (CString × UIntPtr) :=
  match c.target.fileImage.filter (· ≠ []), c.target.imagePath with
  | none, some path => some (path, c.target.imageBase)
  | _, _ => none

/-- The file of the image of a call can be loaded. -/
def Loads (c : RebindCall) (chains : LoadedChains) : Prop :=
  ∃ header, c.peek = some (.ok header) ∧ loadFile c.env c.target header = some (.ok chains)

/-- An image that an earlier call has loaded has not been replaced by another at its base. -/
def Keeps (later earlier : RebindCall) : Prop :=
  ∀ place chains, earlier.place = some place → later.place = some place → earlier.Loads chains →
    later.Loads chains ∧ later.target.imageSize = earlier.target.imageSize

theorem Loads.header {c : RebindCall} {chains : LoadedChains} (h : c.Loads chains)
    {header : MachO.MachoHeader} (hpeek : c.peek = some (.ok header)) :
    loadFile c.env c.target header = some (.ok chains) := by
  obtain ⟨header', hpeek', hload⟩ := h
  cases hpeek.symm.trans hpeek'
  exact hload

theorem Loads.unique {c : RebindCall} {chains chains' : LoadedChains} (h : c.Loads chains)
    (h' : c.Loads chains') : chains = chains' := by
  obtain ⟨header, hpeek, hload⟩ := h
  cases hload.symm.trans (h'.header hpeek)
  rfl

theorem place_eq {c : RebindCall} {place : CString × UIntPtr} (h : c.place = some place) :
    c.target.fileImage.filter (· ≠ []) = none ∧ c.target.imagePath = some place.1 ∧
      c.target.imageBase = place.2 := by
  unfold RebindCall.place at h
  split at h
  · rename_i hseam hpath
    cases h
    exact ⟨hseam, hpath, rfl⟩
  · cases h

end RebindCall

/-! ## Entries -/

/-- The file of an entry was loaded in one of the calls. -/
def FileEntry.From (calls : List RebindCall) (entry : FileEntry) : Prop :=
  ∃ c ∈ calls, c.place = some (entry.path, entry.imageBase) ∧ c.Loads entry.chains

/-- The sites of an entry were found in one of the calls. -/
def SymbolEntry.From (calls : List RebindCall) (entry : SymbolEntry) : Prop :=
  ∃ c ∈ calls, c.place = some (entry.path, entry.imageBase) ∧ ∃ chains candidates uses,
    c.Loads chains ∧ symbolBuildCandidates entry.symbol entry.convention = some candidates ∧
    chainsUses c.target candidates chains = some (uses, .ok) ∧ Replays pac uses entry.sites

/-- Every entry comes from one of the calls. -/
structure RebindCaches.Valid (calls : List RebindCall) (caches : RebindCaches) : Prop where
  files : caches.files.All (FileEntry.From calls)
  symbols : caches.symbols.All (SymbolEntry.From pac calls)

section Caches

variable {pac} {calls : List RebindCall} {caches : RebindCaches} {c : RebindCall}
  {path : CString} {chains : LoadedChains} {candidates : List CString}
  {answer : RebindStatus × RebindPlan}

theorem RebindCaches.Valid.empty (heap : List Bool) :
    (RebindCaches.empty heap).Valid pac [] :=
  ⟨.empty _ _, .empty _ _⟩

theorem RebindCaches.Valid.heap (h : caches.Valid pac calls) (heap : List Bool) :
    RebindCaches.Valid pac calls { caches with heap := heap } :=
  ⟨h.files, h.symbols⟩

theorem RebindCaches.Valid.cons (h : caches.Valid pac calls) (c : RebindCall) :
    caches.Valid pac (c :: calls) := by
  constructor
  · intro entry hentry
    obtain ⟨earlier, hmem, hfrom⟩ := h.files entry hentry
    exact ⟨earlier, List.mem_cons_of_mem _ hmem, hfrom⟩
  · intro entry hentry
    obtain ⟨earlier, hmem, hfrom⟩ := h.symbols entry hentry
    exact ⟨earlier, List.mem_cons_of_mem _ hmem, hfrom⟩

theorem RebindCaches.Valid.publishFile (h : caches.Valid pac calls) {entry : FileEntry}
    (hentry : entry.From calls) : (caches.publishFile entry).Valid pac calls := by
  refine ⟨h.files.put fun a ha ↦ ?_, h.symbols⟩
  cases (Option.ite_none_right_eq_some.mp ha).2
  exact hentry

theorem RebindCaches.Valid.publishSymbol (h : caches.Valid pac calls) {entry : SymbolEntry}
    (hentry : entry.From pac calls) : (caches.publishSymbol entry).Valid pac calls := by
  refine ⟨h.files, h.symbols.put fun a ha ↦ ?_⟩
  cases (Option.ite_none_right_eq_some.mp ha).2
  exact hentry

/-- Sites that a call has found may be published. -/
theorem RebindCaches.Valid.publishFound (h : caches.Valid pac calls) (hmem : c ∈ calls)
    (hplace : c.place = some (path, c.target.imageBase)) (hload : c.Loads chains)
    (hcandidates : symbolBuildCandidates c.symbolName c.convention = some candidates)
    (hparse : parseChains pac c.env.mem c.target candidates chains .empty = some answer) :
    (caches.publishFound c.target path c.symbolName c.convention answer).Valid pac calls := by
  rw [RebindCaches.publishFound]
  split
  · rename_i hpublish
    rw [Bool.and_eq_true] at hpublish
    obtain ⟨uses, huses, hreplays⟩ := parseChains_replays pac hparse hpublish.1
    exact h.publishSymbol ⟨c, hmem, hplace, chains, candidates, uses, hload, hcandidates, huses,
      hreplays⟩
  · exact h

/-- A file that is found is the one that the call would load. -/
theorem RebindCaches.Valid.file (h : caches.Valid pac calls)
    (hkeeps : ∀ earlier ∈ calls, c.Keeps earlier)
    (hplace : c.place = some (path, c.target.imageBase)) {header : MachO.MachoHeader}
    {entry : FileEntry}
    (hfind : caches.files.find? (·.isFor path c.target.imageBase header) = some entry) :
    c.Loads entry.chains := by
  obtain ⟨⟨earlier, hmem, hearlier, hload⟩, hfor⟩ := h.files.find? hfind
  simp only [FileEntry.isFor, Bool.and_eq_true, decide_eq_true_eq] at hfor
  rw [hfor.1.1.1, hfor.1.1.2] at hearlier
  exact (hkeeps earlier hmem _ _ hearlier hplace hload).1

/-- Sites that are found are those that the call would find. -/
theorem RebindCaches.Valid.symbol (h : caches.Valid pac calls)
    (hkeeps : ∀ earlier ∈ calls, c.Keeps earlier)
    (hplace : c.place = some (path, c.target.imageBase)) (hload : c.Loads chains)
    (hcandidates : symbolBuildCandidates c.symbolName c.convention = some candidates)
    {entry : SymbolEntry}
    (hfind : caches.findSymbol c.target path c.symbolName c.convention = some entry) :
    ∃ uses, chainsUses c.target candidates chains = some (uses, .ok) ∧
      Replays pac uses entry.sites := by
  obtain ⟨⟨earlier, hmem, hearlier, chains', candidates', uses, hload', hcandidates', huses,
    hreplays⟩, hfor⟩ := h.symbols.find? hfind
  simp only [SymbolEntry.isFor, Bool.and_eq_true, decide_eq_true_eq] at hfor
  obtain ⟨⟨⟨hbase, hconvention⟩, hpath⟩, hsymbol⟩ := hfor
  rw [hpath, hbase] at hearlier
  obtain ⟨hkept, hsize⟩ := hkeeps earlier hmem _ _ hearlier hplace hload'
  obtain rfl := hkept.unique hload
  rw [hsymbol, hconvention, hcandidates] at hcandidates'
  cases hcandidates'
  refine ⟨uses, ?_, hreplays⟩
  -- the binds of the two calls are of images of one size, at one base
  rw [← huses, chainsUses, chainsUses, hsize, (RebindCall.place_eq hearlier).2.2]

/-! ## One file -/

variable {header : MachO.MachoHeader}

/-- The place of a call that does not use the seam. -/
theorem RebindCall.place_of (hseam : c.target.fileImage.filter (· ≠ []) = none)
    (hpath : c.target.imagePath = some path) :
    c.place = some (path, c.target.imageBase) := by
  unfold RebindCall.place
  rw [hseam, hpath]

/-- **A hit answers as a miss**: what is read of a file is the same with the caches and without. -/
theorem RebindCaches.Valid.prepareFileChains (h : caches.Valid pac calls)
    (hkeeps : ∀ earlier ∈ calls, c.Keeps earlier) (hpeek : c.peek = some (.ok header))
    (hcandidates : symbolBuildCandidates c.symbolName c.convention = some candidates)
    (heap : List Bool) :
    (HookKit.prepareFileChains pac c.env c.target c.symbolName c.convention candidates header
        .empty caches).map Prod.fst =
      (HookKit.prepareFileChains pac c.env c.target c.symbolName c.convention candidates header
        .empty (.empty heap)).map Prod.fst := by
  rw [prepareFileChains_eq, prepareFileChains_eq]
  unfold findChains
  split
  · rfl
  · rfl
  · rename_i path hseam hpath
    have hplace := RebindCall.place_of hseam hpath
    have hfresh : (RebindCaches.empty heap).files.find?
        (·.isFor path c.target.imageBase header) = none := rfl
    rw [hfresh]
    cases hfile : caches.files.find? (·.isFor path c.target.imageBase header) with
    | none => rfl
    | some entry =>
      have hload := h.file hkeeps hplace hfile
      rw [hload.header hpeek]
      dsimp only
      cases hsymbol : caches.findSymbol c.target path c.symbolName c.convention with
      | none => rfl
      | some known =>
        obtain ⟨uses, huses, hreplays⟩ := h.symbol hkeeps hplace hload hcandidates hsymbol
        simp only [Option.bind_eq_bind, Option.bind_some, ChainsFrom.uses, Option.map_some,
          ChainsFrom.ofLoad, huses, hreplays c.env.mem]

/-- What a call leaves in the caches comes from it, or was there. -/
theorem RebindCaches.Valid.prepareFileChains_step (h : caches.Valid pac calls)
    (hkeeps : ∀ earlier ∈ calls, c.Keeps earlier) (hpeek : c.peek = some (.ok header))
    (hcandidates : symbolBuildCandidates c.symbolName c.convention = some candidates)
    {caches' : RebindCaches}
    (hprepare : HookKit.prepareFileChains pac c.env c.target c.symbolName c.convention candidates
      header .empty caches = some (answer, caches')) : caches'.Valid pac (c :: calls) := by
  have hmem : c ∈ c :: calls := List.mem_cons_self
  have hcons := h.cons c
  obtain ⟨found, hfound, hprepare⟩ := Option.bind_eq_some_iff.mp hprepare
  have hofLoad : ∀ (g : LoadedChains → ChainsFrom) (found : ChainsFrom),
      (loadFile c.env c.target header).map (.ofLoad g) = some found →
      (∃ status, found = .refused status) ∨ ∃ chains, c.Loads chains ∧ found = g chains := by
    intro g found hmap
    obtain ⟨r, hload, rfl⟩ := Option.map_eq_some_iff.mp hmap
    cases r with
    | error status => exact .inl ⟨status, rfl⟩
    | ok chains => exact .inr ⟨chains, ⟨header, hpeek, hload⟩, rfl⟩
  have hrefused : ∀ {status : RebindStatus}, found = .refused status →
      caches'.Valid pac (c :: calls) := by
    rintro status rfl
    cases hprepare
    exact hcons
  have hseam : ∀ {chains : LoadedChains}, found = .seam chains →
      caches'.Valid pac (c :: calls) := by
    rintro chains rfl
    obtain ⟨answer', -, hprepare⟩ := Option.bind_eq_some_iff.mp hprepare
    cases hprepare
    exact hcons
  unfold findChains at hfound
  split at hfound
  · obtain ⟨status, heq⟩ | ⟨chains, -, heq⟩ := hofLoad _ _ hfound
    · exact hrefused heq
    · exact hseam heq
  · obtain ⟨status, heq⟩ | ⟨chains, -, heq⟩ := hofLoad _ _ hfound
    · exact hrefused heq
    · exact hseam heq
  · rename_i path hnone hpath
    have hplace := RebindCall.place_of hnone hpath
    split at hfound
    · obtain ⟨status, heq⟩ | ⟨chains, hload, rfl⟩ := hofLoad _ _ hfound
      · exact hrefused heq
      · obtain ⟨answer', hparse, hprepare⟩ := Option.bind_eq_some_iff.mp hprepare
        cases hprepare
        have hfile : (caches.publishFile ⟨path, c.target.imageBase, header.cputype,
            header.cpusubtype, chains⟩).Valid pac (c :: calls) :=
          hcons.publishFile ⟨c, hmem, hplace, hload⟩
        exact hfile.publishFound hmem hplace hload hcandidates hparse
    · rename_i entry hfile
      have hload := h.file hkeeps hplace hfile
      split at hfound
      · cases hfound
        cases hprepare
        exact hcons
      · cases hfound
        obtain ⟨answer', hparse, hprepare⟩ := Option.bind_eq_some_iff.mp hprepare
        cases hprepare
        exact hcons.publishFound hmem hplace hload hcandidates hparse

end Caches

/-! ## One image -/

/-- A process that has cached no file and no symbol. -/
def RebindProcess.uncached (p : RebindProcess) : RebindProcess :=
  { p with caches := .empty p.caches.heap }

section Image

variable {pac} {calls : List RebindCall} {c : RebindCall} {p p' : RebindProcess}
  {candidates : List CString} {header : MachO.MachoHeader} {answer : RebindStatus × RebindPlan}

/-- The reader of the patch table does not use the caches, and leaves them alone. -/
theorem patchAnswer_uncached (env : RebindEnv) (target : RebindTarget)
    (range : UIntPtr × Nat × Bool) (headerSize : Nat) (symbolName : CString)
    (convention : NameConvention) (p : RebindProcess) :
    patchAnswer env target range headerSize symbolName convention p.uncached =
      (patchAnswer env target range headerSize symbolName convention p).map fun r ↦
        (r.1, r.2.uncached) := by
  unfold patchAnswer
  cases target.imagePath with
  | none => rfl
  | some path =>
    dsimp only [RebindProcess.uncached, RebindCaches.empty]
    rcases iterateSymbolUses _ _ _ _ _ _ _ with _ | ⟨answer, lookup, indexes, heap⟩ <;> rfl

theorem patchAnswer_caches {env : RebindEnv} {target : RebindTarget}
    {range : UIntPtr × Nat × Bool} {headerSize : Nat} {symbolName : CString}
    {convention : NameConvention} {answer : CachePatches.Answer}
    (h : patchAnswer env target range headerSize symbolName convention p = some (answer, p')) :
    p'.caches = { p.caches with heap := p'.caches.heap } := by
  unfold patchAnswer at h
  split at h
  · cases h
    rfl
  · obtain ⟨⟨answer', lookup, indexes, heap⟩, -, h⟩ := Option.bind_eq_some_iff.mp h
    cases h
    rfl

/-- An image outside the shared cache. -/
theorem RebindCaches.Valid.prepareImage (h : p.caches.Valid pac calls)
    (hkeeps : ∀ earlier ∈ calls, c.Keeps earlier) (hpeek : c.peek = some (.ok header))
    (hcandidates : symbolBuildCandidates c.symbolName c.convention = some candidates) :
    (HookKit.prepareImage pac c.env c.target c.symbolName c.convention candidates header .empty
        p).map Prod.fst =
      (HookKit.prepareImage pac c.env c.target c.symbolName c.convention candidates header .empty
        p.uncached).map Prod.fst := by
  rw [HookKit.prepareImage, HookKit.prepareImage]
  cases MachO.findLoadCommand (readRange c.env.mem c.target.imageBase
    (MachO.headerSize + header.sizeofcmds)) MachO.lcDyldChainedFixups with
  | none => rfl
  | some command =>
    simp only [Option.bind_eq_bind, Option.bind_some]
    cases command with
    | error status =>
      cases status with
      | notFound =>
        dsimp only
        rcases prepareLegacy _ _ _ _ _ _ with _ | answer <;> rfl
      | _ => rfl
    | ok command =>
      dsimp only
      split
      · rfl
      · have hchains := h.prepareFileChains hkeeps hpeek hcandidates p.caches.heap
        have huncached : p.uncached.caches = .empty p.caches.heap := rfl
        rw [huncached]
        revert hchains
        rcases HookKit.prepareFileChains _ _ _ _ _ _ _ _ p.caches with
          _ | ⟨⟨status, plan⟩, caches⟩ <;>
          rcases HookKit.prepareFileChains _ _ _ _ _ _ _ _ (.empty _) with
            _ | ⟨⟨status', plan'⟩, caches'⟩
        · exact fun _ ↦ rfl
        · simp
        · simp
        · intro hchains
          obtain ⟨rfl, rfl⟩ : status = status' ∧ plan = plan' := by simpa using hchains
          rfl

theorem RebindCaches.Valid.prepareImage_step (h : p.caches.Valid pac calls)
    (hkeeps : ∀ earlier ∈ calls, c.Keeps earlier) (hpeek : c.peek = some (.ok header))
    (hcandidates : symbolBuildCandidates c.symbolName c.convention = some candidates)
    (hprepare : HookKit.prepareImage pac c.env c.target c.symbolName c.convention candidates header
      .empty p = some (answer, p')) : p'.caches.Valid pac (c :: calls) := by
  obtain ⟨command, -, hprepare⟩ := Option.bind_eq_some_iff.mp hprepare
  cases command with
  | error status =>
    cases status with
    | notFound =>
      obtain ⟨answer', -, hprepare⟩ := Option.bind_eq_some_iff.mp hprepare
      cases hprepare
      exact h.cons c
    | _ =>
      cases hprepare
      exact h.cons c
  | ok command =>
    dsimp only at hprepare
    split at hprepare
    · cases hprepare
      exact h.cons c
    · obtain ⟨⟨⟨status, plan⟩, caches⟩, hchains, hprepare⟩ := Option.bind_eq_some_iff.mp hprepare
      cases hprepare
      exact h.prepareFileChains_step hkeeps hpeek hcandidates hchains

/-- **One call**, when every entry is of an image that is still there. -/
theorem RebindCaches.Valid.run (h : p.caches.Valid pac calls)
    (hkeeps : ∀ earlier ∈ calls, c.Keeps earlier) :
    (c.run pac p).map Prod.fst = (c.run pac p.uncached).map Prod.fst := by
  rw [RebindCall.run, RebindCall.run]
  unfold rebindPrepareWithLookup
  split
  · rfl
  cases hcandidates : symbolBuildCandidates c.symbolName c.convention with
  | none => rfl
  | some candidates =>
    cases hpeek : MachO.peekHeader (readRange c.env.mem c.target.imageBase MachO.headerSize) with
    | none => rfl
    | some header =>
      simp only [Option.bind_eq_bind, Option.bind_some]
      cases header with
      | error status => rfl
      | ok header =>
        dsimp only
        split
        · rfl
        split
        · rw [patchAnswer_uncached]
          cases hanswer : patchAnswer c.env c.target (liveCacheRange c.env c.target)
              (MachO.headerSize + header.sizeofcmds) c.symbolName c.convention p with
          | none => rfl
          | some answered =>
            obtain ⟨answer, p'⟩ := answered
            simp only [Option.map_some, Option.bind_some]
            split
            · rfl
            split
            · rfl
            split
            · rfl
            cases hstatus : answer.status with
            | noMetadata =>
              -- there are no tables, and so no sites
              have hempty := patchAnswer_empty hanswer (.inl hstatus)
              rw [hempty]
              have hvalid : p'.caches.Valid pac calls := by
                rw [patchAnswer_caches hanswer]
                exact h.heap _
              exact hvalid.prepareImage hkeeps hpeek hcandidates
            | _ => rfl
        · exact h.prepareImage hkeeps hpeek hcandidates

theorem RebindCaches.Valid.run_step (h : p.caches.Valid pac calls)
    (hkeeps : ∀ earlier ∈ calls, c.Keeps earlier) (hrun : c.run pac p = some (answer, p')) :
    p'.caches.Valid pac (c :: calls) := by
  rw [RebindCall.run] at hrun
  unfold rebindPrepareWithLookup at hrun
  split at hrun
  · cases hrun
    exact h.cons c
  split at hrun
  · cases hrun
    exact h.cons c
  rename_i candidates hcandidates
  obtain ⟨header, hpeek, hrun⟩ := Option.bind_eq_some_iff.mp hrun
  cases header with
  | error status =>
    cases hrun
    exact h.cons c
  | ok header =>
    dsimp only at hrun
    split at hrun
    · cases hrun
      exact h.cons c
    split at hrun
    · obtain ⟨⟨answer', p₁⟩, hanswer, hrun⟩ := Option.bind_eq_some_iff.mp hrun
      have hvalid : p₁.caches.Valid pac calls := by
        rw [patchAnswer_caches hanswer]
        exact h.heap _
      have hcons := hvalid.cons c
      dsimp only at hrun
      split at hrun
      · cases hrun
        exact hcons
      split at hrun
      · cases hrun
        exact hcons
      split at hrun
      · cases hrun
        exact hcons
      cases hstatus : answer'.status with
      | noMetadata =>
        rw [hstatus, patchAnswer_empty hanswer (.inl hstatus)] at hrun
        exact hvalid.prepareImage_step hkeeps hpeek hcandidates hrun
      | _ =>
        rw [hstatus] at hrun
        cases hrun
        exact hcons
    · exact h.prepareImage_step hkeeps hpeek hcandidates hrun

end Image

/-! ## Histories -/

/-- What can be reached by calls, the last of them first.  What the reader of the patch tables keeps
and which allocations succeed may change in between. -/
inductive RebindProcess.Reached : List RebindCall → RebindProcess → Prop where
  | initial (heap : List Bool) (indexes : List IndexSlot) (lookup : Option Lookup) :
      Reached [] ⟨.empty heap, indexes, lookup⟩
  | call {calls : List RebindCall} {p p' : RebindProcess} {c : RebindCall}
      {answer : RebindStatus × RebindPlan} (hp : Reached calls p)
      (h : c.run pac p = some (answer, p')) : Reached (c :: calls) p'
  | elsewhere {calls : List RebindCall} {p : RebindProcess} (hp : Reached calls p)
      (heap : List Bool) (indexes : List IndexSlot) (lookup : Option Lookup) :
      Reached calls ⟨{ p.caches with heap := heap }, indexes, lookup⟩

section Histories

variable {pac} {calls : List RebindCall} {p : RebindProcess} {c : RebindCall}

theorem RebindProcess.Reached.valid (h : p.Reached pac calls)
    (hkeeps : calls.Pairwise RebindCall.Keeps) : p.caches.Valid pac calls := by
  induction h with
  | initial heap indexes lookup => exact .empty heap
  | call hp h ih =>
    obtain ⟨hlast, hbefore⟩ := List.pairwise_cons.mp hkeeps
    exact (ih hbefore).run_step hlast h
  | elsewhere hp heap indexes lookup ih => exact (ih hkeeps).heap heap

/-- **The caches do not show.**  After any history of calls, with hits, evictions and allocations
that fail, a call answers as it does with empty caches, as long as no image that was loaded has
been replaced by another from the same path at the same base. -/
theorem rebindPrepareWithLookup_uncached (h : p.Reached pac calls)
    (hkeeps : (c :: calls).Pairwise RebindCall.Keeps) :
    (c.run pac p).map Prod.fst = (c.run pac p.uncached).map Prod.fst := by
  obtain ⟨hlast, hbefore⟩ := List.pairwise_cons.mp hkeeps
  exact (h.valid hbefore).run hlast

theorem RebindCall.Keeps.self (c : RebindCall) : c.Keeps c :=
  fun _ _ _ _ hload ↦ ⟨hload, rfl⟩

end Histories

/-! ### A file with one import -/

/-- A file with one segment, in which two pointers to the only import, `f`, stand; the chain of its
page has only the one at `slot`. -/
def chainedFile (uuid : Byte) (slot : Nat) : List Byte := List.flatten [
  littleEndian 4 MachO.mhMagic64, littleEndian 4 0x0100000c, littleEndian 4 0, littleEndian 4 6,
  littleEndian 4 3, littleEndian 4 112, littleEndian 4 0, littleEndian 4 0,
  littleEndian 4 MachO.lcSegment64, littleEndian 4 72, MachO.linkeditName, littleEndian 6 0,
  littleEndian 8 0x4000, littleEndian 8 0x4000, littleEndian 8 0, littleEndian 8 226,
  littleEndian 4 3, littleEndian 4 3, littleEndian 4 0, littleEndian 4 0,
  littleEndian 4 lcUuid, littleEndian 4 24, List.replicate 16 uuid,
  littleEndian 4 MachO.lcDyldChainedFixups, littleEndian 4 16,
  littleEndian 4 160, littleEndian 4 66,
  littleEndian 8 (2 ^ 63), littleEndian 8 (2 ^ 63),
  -- the fixups: their header, the starts, the import, and its name
  littleEndian 4 0, littleEndian 4 28, littleEndian 4 60, littleEndian 4 64, littleEndian 4 1,
  littleEndian 4 chainedImport, littleEndian 4 0,
  littleEndian 4 1, littleEndian 4 8,
  littleEndian 4 24, littleEndian 2 0x4000, littleEndian 2 ptr64Offset, littleEndian 8 0,
  littleEndian 4 0, littleEndian 2 1, littleEndian 2 slot,
  littleEndian 4 0, [0x66, 0x00]]

/-- A call for `f` in such a file, which has been loaded at `0x4000`. -/
def chainedCall (uuid : Byte) (slot : Nat) : RebindCall where
  env := {
    mem a := if a.toNat < 0x4000 then 0 else (chainedFile uuid slot).getD (a.toNat - 0x4000) 0
    file _ := some (chainedFile uuid slot)
    dyldSharedCacheRange := none }
  target := {
    imageBase := 0x4000
    imageSize := 0x4000
    slide := 0
    imagePath := some [0x70]
    fileImage := none
    cacheBase := 0
    cacheSize := 0
    uuid := none
    includeSharedCacheGot := false }
  symbolName := [0x66]
  convention := .machoExact

/-- A process before the first call. -/
def RebindProcess.fresh : RebindProcess := ⟨.empty [], [], none⟩

/-- The second call finds the sites of the first. -/
theorem chainedCall_twice : ∃ p : RebindProcess, p.Reached .plain [chainedCall 1 144] ∧
    (p.caches.symbols.slots.map Option.isSome).count true = 1 ∧
    ((chainedCall 1 144).run .plain p).map Prod.fst =
      ((chainedCall 1 144).run .plain p.uncached).map Prod.fst := by
  have hran : ((chainedCall 1 144).run .plain .fresh).map (fun r ↦
      (r.2.caches.symbols.slots.map Option.isSome).count true) = some 1 := by decide +kernel
  obtain ⟨⟨answer, p⟩, hrun, hcached⟩ := Option.map_eq_some_iff.mp hran
  have hreached : p.Reached .plain [chainedCall 1 144] := .call (.initial [] [] none) hrun
  exact ⟨p, hreached, hcached, rebindPrepareWithLookup_uncached hreached
    (by simp [RebindCall.Keeps.self])⟩

/-- The addresses of the sites that a call finds. -/
def RebindCall.addresses (c : RebindCall) (p : RebindProcess) : Option (List UIntPtr) :=
  (c.run .plain p).map fun r ↦ r.1.2.sites.map RebindSite.address

/-- An image that has been replaced is answered with the sites of the one before. -/
example : (((chainedCall 1 144).run .plain .fresh).bind fun r ↦
      (chainedCall 2 152).addresses r.2) = some [0x4090] ∧
    (chainedCall 2 152).addresses .fresh = some [0x4098] := by
  decide +kernel

end HookKit
