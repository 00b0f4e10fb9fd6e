import HookKit.Engines.RebindImages
import HookKit.Resolvers.CachePatchAnswers
import HookKit.Resolvers.ChainedBinds
import HookKit.Resolvers.ImportSlotVisits

/-!
# Reading first, looking at the slots afterwards

The callbacks of `hk_rebind_prepare_with_lookup` look at the slots while the metadata is being read,
and stop the readers.  What comes of an image is the same when all uses of the symbol are read
first, and their slots are looked at afterwards.

* `bindUses`, `slotUses`, `importUses` — the uses that the metadata names.
* `parseChains_eq`, `prepareLegacy_eq` — the readers, for every plan to start with.
-/

set_option autoImplicit false

namespace HookKit

open Checked Listing CachePatches Chained

variable (pac : Pac) (mem : UIntPtr → Byte)

/-! ## Verdicts -/

/-- The status of an image, given the answers of `add_site`, the plan, and how reading ended. -/
def siteVerdict (added : List AddSiteStatus × RebindPlan) (ended : RebindStatus) : RebindStatus :=
  if .overflow ∈ added.1 then .tooManySites
  else if .pacMismatch ∈ added.1 then .pacMismatch
  else if .malformed ∈ added.1 then .malformedImage
  else if ended ≠ .ok then ended
  else if added.2.sites ≠ [] then .ok else .notFound

/-- A status and a plan, after `finalize_plan` where there is something to finalize. -/
def finalized (answer : RebindStatus × RebindPlan) : RebindStatus × RebindPlan :=
  if answer.1 = .ok then finalizePlan answer.2 else answer

theorem finalizePlan_nil {plan : RebindPlan} (h : plan.sites = []) :
    finalizePlan plan = (.notFound, plan) := by
  rw [finalizePlan]
  split
  · rfl
  · rename_i heq
    rw [h] at heq
    cases heq

/-- `rebindPrepare` says the verdict and finalizes the plan. -/
theorem rebindPrepare_eq (found : ImportUses) :
    rebindPrepare pac mem found =
      let added := addSites pac mem found.stops found.uses .empty
      finalized (siteVerdict added found.ended, added.2) := by
  dsimp only
  generalize hadded : addSites pac mem found.stops found.uses .empty = added
  rw [rebindPrepare, hadded, siteVerdict]
  split
  · rfl
  split
  · rfl
  split
  · rfl
  split
  · rename_i hended
    rw [finalized, if_neg hended]
  · split
    · rfl
    · rename_i hsites
      exact finalizePlan_nil (not_not.mp hsites)

/-! ## Chains -/

section Chains

variable {candidates : List CString} {imageBase : UIntPtr} {imageSize : Nat}
  {fixups : ChainedFixups}

/-- The uses that a row of binds names, up to a malformed one, and how reading them ends. -/
def bindUses (candidates : List CString) (imageBase : UIntPtr) (imageSize : Nat)
    (fixups : ChainedFixups) (ended : RebindStatus) :
    List ChainedBind → Option (List SiteUse × RebindStatus)
  | [] => some ([], ended)
  | bind :: rest => do
    match ← chainedUse candidates imageBase imageSize fixups bind with
    | .malformed => some ([], .malformedImage)
    | .other => bindUses candidates imageBase imageSize fixups ended rest
    | .use use => do
      let (uses, ended) ← bindUses candidates imageBase imageSize fixups ended rest
      some (use :: uses, ended)

/-- How the end of a walk over chains is reported. -/
def Chained.ChainedStatus.reported : ChainedStatus → RebindStatus
  | .ok => .ok
  | .malformed => .malformedImage
  | _ => .unsupportedFormat

/-- The plan of a visit, and its verdict. -/
theorem visitBinds {plan : RebindPlan} {chained : ChainedStatus} {binds : List ChainedBind}
    {found : List SiteUse × RebindStatus}
    (h : bindUses candidates imageBase imageSize fixups chained.reported binds = some found)
    (n : Nat) :
    ∃ stopped s,
      visitAll (fun s _ bind ↦
        chainedBindCb pac mem candidates imageBase imageSize fixups s bind) n binds
        (some (.start plan)) = (stopped, some s) ∧
      s.plan = (addSites pac mem true found.1 plan).2 ∧
      s.verdict (if stopped then .ok else chained) =
        siteVerdict (addSites pac mem true found.1 plan) found.2 := by
  induction binds generalizing plan found n with
  | nil =>
    cases h
    refine ⟨false, .start plan, rfl, rfl, ?_⟩
    cases chained <;> simp [SiteCollect.verdict, SiteCollect.start, siteVerdict, addSites,
      Chained.ChainedStatus.reported]
    rfl
  | cons bind rest ih =>
    rw [bindUses] at h
    obtain ⟨use, huse, h⟩ := Option.bind_eq_some_iff.mp h
    have hcb : ∀ s : SiteCollect,
        chainedBindCb pac mem candidates imageBase imageSize fixups (some s) bind =
          ((s.take pac mem use).1, some (s.take pac mem use).2) := by
      intro s
      unfold chainedBindCb
      rw [huse]
    cases use with
    | malformed =>
      cases h
      refine ⟨true, _, visitAll_cons_stop (hcb _) _, rfl, ?_⟩
      simp [SiteCollect.take, SiteCollect.verdict, SiteCollect.start, siteVerdict, addSites]
    | other =>
      obtain ⟨stopped, s, hvisit, hplan, hverdict⟩ := @ih plan found h (n + 1)
      exact ⟨stopped, s, (visitAll_cons_next (hcb _) _).trans hvisit, hplan, hverdict⟩
    | use use =>
      obtain ⟨⟨uses, ended⟩, hrest, h⟩ := Option.bind_eq_some_iff.mp h
      cases h
      rcases hadd : addSite pac mem plan use with ⟨status, plan'⟩
      have htake : (SiteCollect.start plan).take pac mem (.use use) =
          (decide (status = .ok), (SiteCollect.start plan).note (status, plan')) := by
        simp only [SiteCollect.take, SiteCollect.start, hadd]
      have hvisit := hcb (.start plan)
      rw [htake] at hvisit
      by_cases hok : status = .ok
      · subst hok
        obtain ⟨stopped, s, hrest, hplan, hverdict⟩ := @ih plan' (uses, ended) hrest (n + 1)
        refine ⟨stopped, s, ?_, ?_, ?_⟩
        · rw [visitAll_cons_next hvisit]
          exact hrest
        · rw [addSites, hadd]
          exact hplan
        · rw [addSites, hadd]
          exact hverdict
      · rw [decide_eq_false hok] at hvisit
        refine ⟨true, _, visitAll_cons_stop hvisit _, ?_, ?_⟩ <;> rw [addSites, hadd]
        · simp [hok, SiteCollect.note]
        · cases status <;>
            simp_all [SiteCollect.verdict, SiteCollect.note, SiteCollect.start, siteVerdict]

/-- What the chains of a file name. -/
def chainsUses (target : RebindTarget) (candidates : List CString) (chains : LoadedChains) :
    Option (List SiteUse × RebindStatus) := do
  let (chained, binds) ← iterateFileBinds chains.fixups chains.slice chains.mappings record []
  bindUses candidates target.imageBase target.imageSize chains.fixups chained.reported binds

theorem chainedUse_safe (h : Accepted fixups) (bind : ChainedBind) :
    Safe (chainedUse candidates imageBase imageSize fixups bind) fun _ ↦ True := by
  rw [chainedUse]
  refine .bind (importAt_safe h.wellFormed _) fun r hr ↦ ?_
  cases r with
  | error status => exact .some trivial
  | ok imported =>
    obtain ⟨-, k, hk, hnul⟩ := hr imported rfl
    -- the name is terminated, and so it can be read
    have hterminated : ∀ (k : Nat) (bytes : List Byte), bytes[k]? = some 0 →
        Safe (ImportSlots.terminated bytes) fun _ ↦ True := by
      intro k
      induction k with
      | zero =>
        intro bytes hbytes
        cases bytes with
        | nil => cases hbytes
        | cons b rest =>
          cases hbytes
          exact .some trivial
      | succ k ih =>
        intro bytes hbytes
        cases bytes with
        | nil => cases hbytes
        | cons b rest =>
          rw [ImportSlots.terminated]
          refine .ite (fun _ ↦ .some trivial) fun _ ↦ ?_
          obtain ⟨name, hname, -⟩ := ih rest hbytes
          rw [hname]
          exact .some trivial
    refine .bind (hterminated k _ ?_) fun name _ ↦ .ite (fun _ ↦ .some trivial) fun _ ↦
      .ite (fun _ ↦ .some trivial) fun _ ↦ .ite (fun _ ↦ .some trivial) fun _ ↦ .some trivial
    rw [List.getElem?_drop]
    rw [LittleEndian.readLE] at hnul
    rcases hbyte : fixups.blob[imported.symbolName + k]? with _ | b
    · rw [hbyte] at hnul
      cases hnul
    · rw [hbyte] at hnul
      simp only [LittleEndian.readLE, Option.some.injEq] at hnul
      exact congrArg some (BitVec.eq_of_toNat_eq (by simpa using hnul))

theorem bindUses_safe (h : Accepted fixups) (ended : RebindStatus) (binds : List ChainedBind) :
    Safe (bindUses candidates imageBase imageSize fixups ended binds) fun _ ↦ True := by
  induction binds with
  | nil => exact .some trivial
  | cons bind rest ih =>
    rw [bindUses]
    refine .bind (chainedUse_safe h bind) fun use _ ↦ ?_
    cases use with
    | malformed => exact .some trivial
    | other => exact ih
    | use use => exact .bind ih fun _ _ ↦ .some trivial

theorem chainsUses_safe (target : RebindTarget) (candidates : List CString)
    (chains : LoadedChains) : Safe (chainsUses target candidates chains) fun _ ↦ True := by
  rw [chainsUses]
  refine .bind (iterate_safe chains.fixups chains.slice (some chains.mappings) record [])
    fun r _ ↦ ?_
  exact bindUses_safe chains.accepted _ _

/-- **The chains of a file**: reading them first comes to the same. -/
theorem parseChains_eq (target : RebindTarget) (candidates : List CString) (chains : LoadedChains)
    (plan : RebindPlan) :
    parseChains pac mem target candidates chains plan =
      (chainsUses target candidates chains).map fun found ↦
        let added := addSites pac mem true found.1 plan
        (siteVerdict added found.2, added.2) := by
  obtain ⟨⟨chained, binds⟩, hwalk, -⟩ :=
    iterate_safe chains.fixups chains.slice (some chains.mappings) record []
  obtain ⟨found, hfound, -⟩ := @bindUses_safe candidates target.imageBase target.imageSize
    chains.fixups chains.accepted chained.reported binds
  have hwalk' : iterateFileBinds chains.fixups chains.slice chains.mappings record [] =
    some (chained, binds) := hwalk
  obtain ⟨stopped, s, hvisit, hplan, hverdict⟩ := @visitBinds pac mem candidates target.imageBase
    target.imageSize chains.fixups plan chained binds found hfound 0
  rw [parseChains, chainsUses, hwalk', iterateFileBinds, iterate_recorded hwalk, replay, hvisit]
  cases stopped with
  | false => simp [hfound, hplan, ← hverdict]
  | true => simp [hfound, hplan, ← hverdict]

end Chains

/-! ## Files -/

/-- What `prepare_file_chains` reads, wherever it has it from. -/
def ChainsFrom.uses (target : RebindTarget) (candidates : List CString) :
    ChainsFrom → Option (List SiteUse × RebindStatus)
  | .refused status => some ([], status)
  | .symbol sites => some (sites, .ok)
  | .seam chains | .cached _ chains | .loaded _ chains => chainsUses target candidates chains

theorem ChainsFrom.uses_safe (target : RebindTarget) (candidates : List CString)
    (found : ChainsFrom) : Safe (found.uses target candidates) fun _ ↦ True := by
  cases found with
  | refused status => exact .some trivial
  | symbol sites => exact .some trivial
  | seam chains => exact chainsUses_safe target candidates chains
  | cached path chains => exact chainsUses_safe target candidates chains
  | loaded path chains => exact chainsUses_safe target candidates chains

/-- The sites of a cached symbol are added like all others. -/
theorem replaySites_eq (uses : List SiteUse) (plan : RebindPlan) :
    replaySites pac mem uses plan =
      let added := addSites pac mem true uses plan
      (siteVerdict added .ok, added.2) := by
  induction uses generalizing plan with
  | nil => rfl
  | cons use rest ih =>
    rw [replaySites, addSites]
    rcases addSite pac mem plan use with ⟨status, plan'⟩
    cases status with
    | ok => exact ih plan'
    | overflow => rfl
    | malformed => rfl
    | pacMismatch => rfl

/-- A file that is refused is refused for a reason. -/
def Refuses (r : Except RebindStatus LoadedChains) : Prop := ∀ status, r = .error status →
  status ≠ .ok ∧ status ≠ .notFound

theorem Refuses.error {status : RebindStatus} (h : status ≠ .ok ∧ status ≠ .notFound) :
    Refuses (.error status) := by
  rintro _ ⟨⟩
  exact h

theorem Refuses.ok (chains : LoadedChains) : Refuses (.ok chains) := by
  rintro _ ⟨⟩

/-- **Loading a file** reads inside it. -/
theorem loadChains_safe (file live : List Byte) (header : MachO.MachoHeader) :
    Safe (loadChains file live header) Refuses := by
  have hmalformed : Safe (some (.error .malformedImage)) Refuses := .some (.error (by decide))
  have huuid : ∀ image, Safe (copyUuid image) fun _ ↦ True := by
    intro image
    rw [copyUuid]
    refine .bind (MachO.findLoadCommand_safe image lcUuid) fun r hr ↦ ?_
    cases r with
    | error status => exact .some trivial
    | ok found =>
      have hinside := hr found rfl
      rw [MachO.RangeInside] at hinside
      refine .ite (fun _ ↦ .some trivial) fun hsize ↦ .bind (.copy (by omega)) fun _ _ ↦
        .some trivial
  have hsegments : ∀ slice fixups accepted, Safe (loadSegments slice fixups accepted) Refuses := by
    intro slice fixups accepted
    rw [loadSegments, MachO.iterateSegments_eq]
    refine .ite (fun _ ↦ .some (.error ?_)) fun _ ↦ .ite (fun _ ↦ hmalformed) fun _ ↦ ?_
    · split <;> decide
    · split
      · exact hmalformed
      · exact .some (.ok _)
  have hfixups : ∀ slice, Safe (loadFixups slice) Refuses := by
    intro slice
    rw [loadFixups]
    refine .bind (MachO.findChainedFixups_safe slice) fun r _ ↦ ?_
    cases r with
    | error status => exact hmalformed
    | ok range =>
      obtain ⟨parsed, hparsed, -⟩ := parse_safe ((slice.drop range.1).take range.2)
      dsimp only
      split
      · rename_i hnone
        cases hparsed.symm.trans hnone
      · exact .some (.error (by decide))
      · exact .some (.error (by decide))
      · exact hmalformed
      · exact hsegments slice _ _
  rw [loadChains]
  refine .bind ((MachO.selectSlice_slice file header.cputype header.cpusubtype).mono
    fun _ _ ↦ trivial) fun r _ ↦ ?_
  cases r with
  | error status =>
    cases status with
    | notFound => exact .some (.error (by decide))
    | _ => exact hmalformed
  | ok range =>
    refine .bind (huuid live) fun r _ ↦ ?_
    cases r with
    | error status => exact hmalformed
    | ok liveUuid =>
      refine .bind (huuid _) fun r _ ↦ ?_
      cases r with
      | error status => exact hmalformed
      | ok fileUuid => exact .ite (fun _ ↦ hmalformed) fun _ ↦ hfixups _

theorem loadFile_safe (env : RebindEnv) (target : RebindTarget) (header : MachO.MachoHeader) :
    Safe (loadFile env target header) Refuses := by
  rw [loadFile]
  split
  · exact .some (.error (by decide))
  · exact loadChains_safe _ _ _

theorem findChains_safe (env : RebindEnv) (target : RebindTarget) (symbolName : CString)
    (convention : NameConvention) (header : MachO.MachoHeader) (caches : RebindCaches) :
    Safe (findChains env target symbolName convention header caches) fun found ↦
      ∀ status, found = .refused status → status ≠ .ok ∧ status ≠ .notFound := by
  obtain ⟨r, hload, hr⟩ := loadFile_safe env target header
  have hofLoad : ∀ g : LoadedChains → ChainsFrom, (∀ chains status, g chains ≠ .refused status) →
      ∀ status, ChainsFrom.ofLoad g r = .refused status → status ≠ .ok ∧ status ≠ .notFound := by
    intro g hg status heq
    cases r with
    | error status' =>
      cases heq
      exact hr status rfl
    | ok chains => exact absurd heq (hg chains status)
  unfold findChains
  rw [hload]
  split
  · exact .some (hofLoad .seam (by simp))
  · exact .some (hofLoad .seam (by simp))
  · split
    · exact .some (hofLoad (.loaded _) (by simp))
    · split <;> exact .some (by simp)

/-- **The file of an image**: wherever the sites come from, reading them first comes to the same. -/
theorem prepareFileChains_eq (env : RebindEnv) (target : RebindTarget) (symbolName : CString)
    (convention : NameConvention) (candidates : List CString) (header : MachO.MachoHeader)
    (plan : RebindPlan) (caches : RebindCaches) :
    (prepareFileChains pac env target symbolName convention candidates header plan caches).map
        Prod.fst =
      (do
        let found ← findChains env target symbolName convention header caches
        found.uses target candidates).map fun found : List SiteUse × RebindStatus ↦
        let added := addSites pac env.mem true found.1 plan
        (siteVerdict added found.2, added.2) := by
  obtain ⟨found, hfound, hrefused⟩ := findChains_safe env target symbolName convention header caches
  rw [prepareFileChains, hfound]
  simp only [Option.bind_eq_bind, Option.bind_some]
  have hchains : ∀ chains, ∃ uses, chainsUses target candidates chains = some uses := fun chains ↦
    (chainsUses_safe target candidates chains).imp fun _ h ↦ h.1
  cases found with
  | refused status => simp [ChainsFrom.uses, siteVerdict, addSites, (hrefused status rfl).1]
  | symbol sites => exact congrArg some (replaySites_eq pac env.mem sites plan)
  | seam chains =>
    obtain ⟨uses, huses⟩ := hchains chains
    simp [ChainsFrom.uses, parseChains_eq, huses]
  | cached path chains =>
    obtain ⟨uses, huses⟩ := hchains chains
    simp [ChainsFrom.uses, parseChains_eq, huses]
  | loaded path chains =>
    obtain ⟨uses, huses⟩ := hchains chains
    simp [ChainsFrom.uses, parseChains_eq, huses]

/-! ## Indirect symbols -/

/-- What the indirect symbols name. -/
def legacyUses (mem : UIntPtr → Byte) (target : RebindTarget) (candidates : List CString)
    (image : List Byte) : Option (List SiteUse × RebindStatus) := do
  match ← MachO.importTablesFromLoadedImage image target.slide with
  | .error _ => some ([], .malformedImage)
  | .ok tables =>
    let tables := tablesAt mem tables
    if tables.indirect = none then some ([], .notFound)
    else do
      let (status, slots) ← ImportSlots.slotsIterate image tables ImportSlots.record []
      some (slots.filterMap (slotUse candidates target.slide),
        if status = .ok then .ok else .malformedImage)

/-- What the callback makes of a row of slots. -/
theorem visitSlots (candidates : List CString) (slide : UIntPtr)
    (slots : List ImportSlots.ImportSlot) (n : Nat) (plan : RebindPlan) :
    let added := addSites pac mem true (slots.filterMap (slotUse candidates slide)) plan
    visitAll (fun s _ slot ↦ dysymtabSlotCb pac mem candidates slide s slot) n slots
        ⟨plan, .ok⟩ =
      (!added.1.isEmpty, ⟨added.2, added.1.headD .ok⟩) ∧
      added.1.length ≤ 1 ∧ .ok ∉ added.1 := by
  induction slots generalizing n plan with
  | nil => exact ⟨rfl, by simp [addSites]⟩
  | cons slot rest ih =>
    cases huse : slotUse candidates slide slot with
    | none =>
      have hnext : dysymtabSlotCb pac mem candidates slide ⟨plan, .ok⟩ slot =
          (true, ⟨plan, .ok⟩) := by
        rw [dysymtabSlotCb, huse]
      rw [List.filterMap_cons_none huse, visitAll_cons_next hnext]
      exact ih (n + 1) plan
    | some use =>
      rw [List.filterMap_cons_some huse, addSites]
      rcases hadd : addSite pac mem plan use with ⟨status, plan'⟩
      by_cases hok : status = .ok
      · subst hok
        have hnext : dysymtabSlotCb pac mem candidates slide ⟨plan, .ok⟩ slot =
            (true, ⟨plan', .ok⟩) := by
          simp only [dysymtabSlotCb, huse, hadd, if_true]
        rw [visitAll_cons_next hnext]
        exact ih (n + 1) plan'
      · have hstop : dysymtabSlotCb pac mem candidates slide ⟨plan, .ok⟩ slot =
            (false, ⟨plan', status⟩) := by
          simp only [dysymtabSlotCb, huse, hadd, if_neg hok]
        rw [visitAll_cons_stop hstop]
        simp [hok, Ne.symm hok]

/-- **The indirect symbols**: reading them first comes to the same. -/
theorem prepareLegacy_eq (target : RebindTarget) (candidates : List CString) (image : List Byte)
    (plan : RebindPlan) :
    prepareLegacy pac mem target candidates image plan =
      (legacyUses mem target candidates image).map fun found ↦
        let added := addSites pac mem true found.1 plan
        finalized (siteVerdict added found.2, added.2) := by
  rw [prepareLegacy, legacyUses]
  cases MachO.importTablesFromLoadedImage image target.slide with
  | none => rfl
  | some tables =>
    simp only [Option.bind_eq_bind, Option.bind_some]
    cases tables with
    | error status => rfl
    | ok tables =>
      dsimp only
      generalize tablesAt mem tables = tables
      by_cases hnone : tables.indirect = none
      · rw [if_pos hnone, if_pos hnone]
        rfl
      rw [if_neg hnone, if_neg hnone]
      obtain ⟨status, slots, hrecorded, hall⟩ := ImportSlots.slotsIterate_recorded image tables
      obtain ⟨hvisit, hlength, hok⟩ := visitSlots pac mem candidates target.slide slots 0 plan
      rw [hrecorded, hall, hvisit]
      dsimp only [Option.bind_some, Option.map_some]
      generalize hadded : addSites pac mem true (slots.filterMap (slotUse candidates target.slide))
        plan = added at hlength hok ⊢
      obtain ⟨errors, plan'⟩ := added
      cases errors with
      | nil =>
        by_cases hstatus : status = .ok
        · rw [if_pos hstatus]
          by_cases hsites : plan'.sites = []
          · simp [siteVerdict, hstatus, hsites, finalized, finalizePlan_nil hsites]
          · simp [siteVerdict, hstatus, hsites, finalized]
        · simp [siteVerdict, hstatus, finalized]
      | cons error rest =>
        have hrest : rest = [] := by
          rw [List.length_cons] at hlength
          exact List.length_eq_zero_iff.mp (by omega)
        subst hrest
        cases error with
        | ok => simp at hok
        | overflow => simp [siteVerdict, finalized]
        | malformed => simp [siteVerdict, finalized]
        | pacMismatch => simp [siteVerdict, finalized]

/-! ## The shared cache -/

/-- The flags of a context are the answers that were given. -/
structure SiteCollect.Collects (s : SiteCollect) (added : List AddSiteStatus × RebindPlan) :
    Prop where
  plan : s.plan = added.2
  overflow : s.overflow = true ↔ .overflow ∈ added.1
  malformed : s.malformed = true ↔ .malformed ∈ added.1
  pacMismatch : s.pacMismatch = true ↔ .pacMismatch ∈ added.1

theorem SiteCollect.Collects.note {s : SiteCollect} {before : List AddSiteStatus}
    {plan : RebindPlan} (h : s.Collects (before, plan)) (status : AddSiteStatus)
    (plan' : RebindPlan) :
    (s.note (status, plan')).Collects
      (if status = .ok then before else before ++ [status], plan') := by
  obtain ⟨-, hoverflow, hmalformed, hpacMismatch⟩ := h
  constructor <;> cases status <;>
    simp_all [SiteCollect.note]

/-- The callback adds all sites, whatever became of those before. -/
theorem collectPatchSites_collects (sites : List PatchSite) (plan : RebindPlan) :
    (collectPatchSites pac mem sites plan).Collects
      (addSites pac mem false (sites.map patchUse) plan) := by
  -- the answers before are in the flags already
  have hfold : ∀ (sites : List PatchSite) (s : SiteCollect) (before : List AddSiteStatus),
      s.Collects (before, s.plan) →
      (sites.foldl (fun s site ↦ s.note (addSite pac mem s.plan (patchUse site))) s).Collects
        (before ++ (addSites pac mem false (sites.map patchUse) s.plan).1,
          (addSites pac mem false (sites.map patchUse) s.plan).2) := by
    intro sites
    induction sites with
    | nil =>
      intro s before h
      simpa [addSites] using h
    | cons site rest ih =>
      intro s before h
      rw [List.foldl_cons, List.map_cons, addSites]
      rcases addSite pac mem s.plan (patchUse site) with ⟨status, plan'⟩
      have hrest := ih _ _ (h.note status plan')
      by_cases hok : status = .ok
      · simpa [hok, SiteCollect.note] using hrest
      · simpa [hok, SiteCollect.note] using hrest
  exact hfold sites (.start plan) [] ⟨rfl, by simp [SiteCollect.start], by simp [SiteCollect.start],
    by simp [SiteCollect.start]⟩

/-! ## One image -/

/-- What an image names that has no patch table: the uses, whether the reader heeds its visitor, and
how reading ends. -/
def imageUses (env : RebindEnv) (target : RebindTarget) (symbolName : CString)
    (convention : NameConvention) (candidates : List CString) (header : MachO.MachoHeader)
    (p : RebindProcess) : Option (List SiteUse × RebindStatus) := do
  let image := readRange env.mem target.imageBase (MachO.headerSize + header.sizeofcmds)
  match ← MachO.findLoadCommand image MachO.lcDyldChainedFixups with
  | .ok (_, cmdsize) =>
    if cmdsize < MachO.linkeditDataCmdSize then some ([], .malformedImage)
    else do
      let found ← findChains env target symbolName convention header p.caches
      found.uses target candidates
  | .error .notFound => legacyUses env.mem target candidates image
  | .error _ => some ([], .malformedImage)

/-- How the reader of the patch table is reported. -/
def CachePatches.CachePatchStatus.reported : CachePatchStatus → RebindStatus
  | .ok => .ok
  | .notFound => .notFound
  | .scopeUnrepresentable => .scopeUnrepresentable
  | .unsupported => .unsupportedFormat
  | .noMetadata | .notCache | .invalidArgument | .malformed => .malformedImage

/-- What the metadata of an image names, wherever it stands: the uses, whether their reader heeds
its visitor, and how reading ends. -/
def metadataUses (env : RebindEnv) (target : RebindTarget) (symbolName : CString)
    (convention : NameConvention) (p : RebindProcess) :
    Option (List SiteUse × Bool × RebindStatus) :=
  if target.imageBase = 0 then some ([], true, .invalidArgument)
  else
    match symbolBuildCandidates symbolName convention with
    | none => some ([], true, .invalidArgument)
    | some candidates => do
      match ← MachO.peekHeader (readRange env.mem target.imageBase MachO.headerSize) with
      | .error _ => some ([], true, .malformedImage)
      | .ok header =>
        let headerSize := MachO.headerSize + header.sizeofcmds
        if target.imageSize < headerSize then some ([], true, .malformedImage)
        else
          let range := liveCacheRange env target
          if inCache range.1 range.2.1 target.imageBase then do
            let (answer, p) ← patchAnswer env target range headerSize symbolName convention p
            if answer.status = .noMetadata then do
              let (uses, ended) ← imageUses env target symbolName convention candidates header p
              some (uses, true, ended)
            else some (answer.sites.map patchUse, false, answer.status.reported)
          else do
            let (uses, ended) ← imageUses env target symbolName convention candidates header p
            some (uses, true, ended)

theorem prepareImage_eq (env : RebindEnv) (target : RebindTarget) (symbolName : CString)
    (convention : NameConvention) (candidates : List CString) (header : MachO.MachoHeader)
    (plan : RebindPlan) (p : RebindProcess) :
    (prepareImage pac env target symbolName convention candidates header plan p).map Prod.fst =
      (imageUses env target symbolName convention candidates header p).map fun found ↦
        let added := addSites pac env.mem true found.1 plan
        finalized (siteVerdict added found.2, added.2) := by
  rw [prepareImage, imageUses]
  cases MachO.findLoadCommand (readRange env.mem target.imageBase
    (MachO.headerSize + header.sizeofcmds)) MachO.lcDyldChainedFixups with
  | none => rfl
  | some command =>
    simp only [Option.bind_eq_bind, Option.bind_some]
    cases command with
    | error status =>
      cases status with
      | notFound =>
        dsimp only
        rw [prepareLegacy_eq]
        cases legacyUses env.mem target candidates _ <;> rfl
      | _ => rfl
    | ok found =>
      obtain ⟨offset, cmdsize⟩ := found
      dsimp only
      split
      · rfl
      · have hchains := prepareFileChains_eq pac env target symbolName convention candidates header
          plan p.caches
        simp only [Option.bind_eq_bind] at hchains
        generalize (findChains env target symbolName convention header p.caches).bind
          (fun found ↦ found.uses target candidates) = uses at hchains ⊢
        generalize prepareFileChains pac env target symbolName convention candidates header plan
          p.caches = prepared at hchains ⊢
        rcases prepared with _ | ⟨⟨status, plan'⟩, caches⟩
        · cases uses with
          | none => rfl
          | some uses => cases hchains
        · cases uses with
          | none => cases hchains
          | some uses =>
            simp only [Option.map_some, Option.some.injEq, Prod.mk.injEq] at hchains
            obtain ⟨rfl, rfl⟩ := hchains
            rfl

/-- A query that answers that there is no metadata leaves the plan alone. -/
theorem patchAnswer_empty {env : RebindEnv} {target : RebindTarget} {range : UIntPtr × Nat × Bool}
    {headerSize : Nat} {symbolName : CString} {convention : NameConvention}
    {p p' : RebindProcess} {answer : CachePatches.Answer}
    (h : patchAnswer env target range headerSize symbolName convention p = some (answer, p'))
    (hstatus : answer.status = .noMetadata ∨ answer.status = .notFound) : answer.sites = [] := by
  unfold patchAnswer at h
  split at h
  · cases h
    rfl
  · obtain ⟨⟨answer', lookup, indexes, heap⟩, hquery, h⟩ := Option.bind_eq_some_iff.mp h
    cases h
    exact iterateSymbolUses_empty hquery hstatus

theorem bindUses_ended {candidates : List CString} {imageBase : UIntPtr} {imageSize : Nat}
    {fixups : ChainedFixups} {chained : ChainedStatus} {binds : List ChainedBind}
    {found : List SiteUse × RebindStatus}
    (h : bindUses candidates imageBase imageSize fixups chained.reported binds = some found) :
    found.2 ≠ .notFound := by
  induction binds generalizing found with
  | nil =>
    cases h
    cases chained <;> decide
  | cons bind rest ih =>
    obtain ⟨use, -, h⟩ := Option.bind_eq_some_iff.mp h
    cases use with
    | malformed =>
      cases h
      decide
    | other => exact ih h
    | use use =>
      obtain ⟨found', hrest, h⟩ := Option.bind_eq_some_iff.mp h
      cases h
      have hended := ih hrest
      exact hended

theorem imageUses_quiet {env : RebindEnv} {target : RebindTarget} {symbolName : CString}
    {convention : NameConvention} {candidates : List CString} {header : MachO.MachoHeader}
    {p : RebindProcess} {found : List SiteUse × RebindStatus}
    (h : imageUses env target symbolName convention candidates header p = some found)
    (hended : found.2 = .notFound) : found.1 = [] := by
  have hchains : ∀ chains, chainsUses target candidates chains ≠ some found := by
    intro chains hchains
    obtain ⟨⟨chained, binds⟩, -, hbinds⟩ := Option.bind_eq_some_iff.mp hchains
    exact bindUses_ended hbinds hended
  obtain ⟨command, -, h⟩ := Option.bind_eq_some_iff.mp h
  cases command with
  | error status =>
    cases status with
    | notFound =>
      obtain ⟨tables, -, h⟩ := Option.bind_eq_some_iff.mp h
      cases tables with
      | error status =>
        cases h
        rfl
      | ok tables =>
        dsimp only at h
        split at h
        · cases h
          rfl
        · obtain ⟨⟨status, slots⟩, -, h⟩ := Option.bind_eq_some_iff.mp h
          cases h
          dsimp only at hended
          split at hended <;> cases hended
    | _ =>
      cases h
      rfl
  | ok command =>
    dsimp only at h
    split at h
    · cases h
      rfl
    · obtain ⟨source, hsource, h⟩ := Option.bind_eq_some_iff.mp h
      cases source with
      | refused status =>
        cases h
        rfl
      | symbol sites =>
        cases h
        cases hended
      | seam chains => exact absurd h (hchains chains)
      | cached path chains => exact absurd h (hchains chains)
      | loaded path chains => exact absurd h (hchains chains)

/-- An image that names nothing is told from one that cannot be read. -/
theorem metadataUses_quiet {env : RebindEnv} {target : RebindTarget} {symbolName : CString}
    {convention : NameConvention} {p : RebindProcess} {found : List SiteUse × Bool × RebindStatus}
    (h : metadataUses env target symbolName convention p = some found)
    (hended : found.2.2 = .notFound) : found.1 = [] := by
  unfold metadataUses at h
  split at h
  · cases h
    rfl
  split at h
  · cases h
    rfl
  obtain ⟨header, -, h⟩ := Option.bind_eq_some_iff.mp h
  cases header with
  | error status =>
    cases h
    rfl
  | ok header =>
    dsimp only at h
    split at h
    · cases h
      rfl
    split at h
    · obtain ⟨⟨answer, p'⟩, hanswer, h⟩ := Option.bind_eq_some_iff.mp h
      dsimp only at h
      split at h
      · obtain ⟨found', himage, h⟩ := Option.bind_eq_some_iff.mp h
        cases h
        exact imageUses_quiet himage hended
      · cases h
        have hstatus : answer.status = .notFound := by
          cases hstatus : answer.status with
          | notFound => rfl
          | _ => simp [hstatus, CachePatchStatus.reported] at hended
        rw [patchAnswer_empty hanswer (.inr hstatus)]
        rfl
    · obtain ⟨found', himage, h⟩ := Option.bind_eq_some_iff.mp h
      cases h
      exact imageUses_quiet himage hended

/-- What the metadata of an image names. -/
def importUses (env : RebindEnv) (target : RebindTarget) (symbolName : CString)
    (convention : NameConvention) (p : RebindProcess) : Option ImportUses :=
  match h : metadataUses env target symbolName convention p with
  | none => none
  | some (uses, stops, ended) => some ⟨uses, stops, ended, metadataUses_quiet h⟩

theorem importUses_map {env : RebindEnv} {target : RebindTarget} {symbolName : CString}
    {convention : NameConvention} {p : RebindProcess} (mem : UIntPtr → Byte) :
    (importUses env target symbolName convention p).map (rebindPrepare pac mem) =
      (metadataUses env target symbolName convention p).map fun found ↦
        let added := addSites pac mem found.2.1 found.1 .empty
        finalized (siteVerdict added found.2.2, added.2) := by
  unfold importUses
  split
  · rename_i hnone
    rw [hnone]
    rfl
  · rename_i uses stops ended hsome
    have hread := congrArg (Option.map fun found : List SiteUse × Bool × RebindStatus ↦
      let added := addSites pac mem found.2.1 found.1 .empty
      finalized (siteVerdict added found.2.2, added.2)) hsome
    rw [hread, Option.map_some, Option.map_some, rebindPrepare_eq]

/-- **Reading first, looking at the slots afterwards.**  What `hk_rebind_prepare_with_lookup` makes
of an image, whatever its caches hold, is what the metadata alone names, with its slots looked at
one after the other when all of it has been read. -/
theorem rebindPrepareWithLookup_eq (env : RebindEnv) (target : RebindTarget)
    (symbolName : CString) (convention : NameConvention) (p : RebindProcess) :
    (rebindPrepareWithLookup pac env target symbolName convention p).map Prod.fst =
      (importUses env target symbolName convention p).map (rebindPrepare pac env.mem) := by
  rw [importUses_map]
  unfold rebindPrepareWithLookup metadataUses
  split
  · rfl
  cases hcandidates : symbolBuildCandidates symbolName convention with
  | none => rfl
  | some candidates =>
    cases MachO.peekHeader (readRange env.mem target.imageBase MachO.headerSize) with
    | none => rfl
    | some header =>
      simp only [Option.bind_eq_bind, Option.bind_some]
      cases header with
      | error status => rfl
      | ok header =>
        dsimp only
        -- the part behind the shared cache
        have himage : ∀ p, (prepareImage pac env target symbolName convention candidates header
            .empty p).map Prod.fst =
            ((imageUses env target symbolName convention candidates header p).bind fun found ↦
              some (found.1, true, found.2)).map fun found : List SiteUse × Bool × RebindStatus ↦
                finalized (siteVerdict (addSites pac env.mem found.2.1 found.1 .empty) found.2.2,
                  (addSites pac env.mem found.2.1 found.1 .empty).2) := by
          intro p
          rw [prepareImage_eq]
          cases imageUses env target symbolName convention candidates header p <;> rfl
        split
        · rfl
        split
        · cases hanswer : patchAnswer env target (liveCacheRange env target)
              (MachO.headerSize + header.sizeofcmds) symbolName convention p with
          | none => rfl
          | some answered =>
            obtain ⟨answer, p'⟩ := answered
            simp only [Option.bind_some]
            obtain ⟨hplan, hoverflow, hmalformed, hpacMismatch⟩ :=
              collectPatchSites_collects pac env.mem answer.sites .empty
            by_cases hmetadata : answer.status = .noMetadata
            · have hempty := patchAnswer_empty hanswer (.inl hmetadata)
              rw [hempty, if_pos hmetadata, ← himage p', hmetadata]
              rfl
            · rw [if_neg hmetadata]
              simp only [Option.map_some, hoverflow, hmalformed, hpacMismatch, hplan]
              generalize addSites pac env.mem false (answer.sites.map patchUse) .empty = added
              rw [finalized, siteVerdict]
              by_cases hover : .overflow ∈ added.1
              · simp [hover]
              by_cases hpac : .pacMismatch ∈ added.1
              · simp [hover, hpac]
              by_cases hmal : .malformed ∈ added.1
              · simp [hover, hpac, hmal]
              by_cases hsites : added.2.sites = []
              · cases hstatus : answer.status <;>
                  simp_all [CachePatchStatus.reported, finalizePlan_nil]
              · cases hstatus : answer.status <;> simp_all [CachePatchStatus.reported]
        · exact himage p

end HookKit
