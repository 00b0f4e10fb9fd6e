import HookKit.Engines.RebindCommit

/-!
# A rebind on top of a rebind

What a commit writes into a slot is encoded: an addend is put on top of it and it is signed for the
slot.  What a preparation reads from a slot is decoded.  Here the two are held against each other.

* `slotValue` — what the replacement is encoded as for a use of the symbol.
* `Represents` — the encoding is an address and not zero.
* `Consistent` — two uses are of slots beside each other, or of the same slot in the same way.
* `addSite_of_holds` — decoding gives back the replacement.
* `Refreshed` — the same sites, every one with the replacement as its callable original.
* `rebind_chains` — after a commit the same request finds the same sites, and may chain.
-/

set_option autoImplicit false

namespace HookKit.Rebind

open WordMemory GuardedWrites

variable {σ τ : Type} {pac : Pac} {r : UIntPtr} {mem mem' : UIntPtr → Byte}

/-! ## Encoding and decoding -/

/-- The use that a site was found through. -/
def useOf (site : RebindSite) : SiteUse :=
  ⟨site.address, site.schema, site.addend, site.weakImport⟩

/-- What the replacement is encoded as for a use. -/
def slotValue (pac : Pac) (r : UIntPtr) (use : SiteUse) : Option UIntPtr :=
  (checkedAdjust (pac.stripCode r) use.addend true).map fun adjusted ↦
    pac.signSlot adjusted use.schema use.address

theorem replacementForSite_eq (pac : Pac) (r : UIntPtr) (site : RebindSite) :
    replacementForSite pac site r = slotValue pac r (useOf site) := rfl

/-- The replacement is code to be called: not NULL, and signed as code is. -/
structure CallableCode (pac : Pac) (r : UIntPtr) : Prop where
  nonzero : r ≠ 0
  stripped : pac.stripCode r ≠ 0
  signed : pac.makeCallable r = r

/-- The replacement can be told from the slot: with the addend it is still an address, and the
slot does not hold zero, which is what an import that is not resolved looks like. -/
def Represents (pac : Pac) (r : UIntPtr) (use : SiteUse) : Prop :=
  ∃ adjusted, checkedAdjust (pac.stripCode r) use.addend true = some adjusted ∧ pac.Raw adjusted ∧
    pac.signSlot adjusted use.schema use.address ≠ 0

/-- The slot of a use holds the replacement. -/
def Holds (pac : Pac) (r : UIntPtr) (mem : UIntPtr → Byte) (use : SiteUse) : Prop :=
  slotValue pac r use = some (readWord mem use.address)

/-- The addend that was put on top is taken away. -/
theorem checkedAdjust_cancel {value adjusted : UIntPtr} {addend : Int}
    (h : checkedAdjust value addend true = some adjusted) :
    checkedAdjust adjusted addend false = some value := by
  have hvalue := value.isLt
  unfold checkedAdjust sizeMax at h ⊢
  by_cases hsign : 0 ≤ addend
  · simp only [hsign, decide_true, if_true] at h ⊢
    split at h
    · cases h
    · cases h
      rw [if_neg (by decide), if_neg (by bv_omega)]
      congr 1
      bv_omega
  · simp only [hsign, decide_false, if_true] at h ⊢
    rw [if_neg (by decide)] at h
    split at h
    · cases h
    · cases h
      rw [if_neg (by bv_omega)]
      congr 1
      bv_omega

/-- A slot that holds the replacement is decoded to it. -/
theorem addSite_of_holds (hpac : pac.Lawful) (hr : CallableCode pac r) {plan : RebindPlan}
    {use : SiteUse} (hrep : Represents pac r use) (hholds : Holds pac r mem use)
    (hnew : plan.sites.find? (fun existing ↦ existing.address = use.address) = none)
    (hroom : plan.sites.length < rebindMaxSites) :
    ∃ plan', addSite pac mem plan use = (.ok, plan') ∧ plan'.sites = plan.sites ++
      [⟨use.address, readWord mem use.address, r, use.addend, use.schema, use.weakImport⟩] := by
  obtain ⟨adjusted, hadjust, hraw, hnonzero⟩ := hrep
  have hold : readWord mem use.address = pac.signSlot adjusted use.schema use.address := by
    rw [Holds, slotValue, hadjust] at hholds
    exact (Option.some.inj hholds).symm
  have hcode : pac.stripCode adjusted = adjusted := hraw .ia
  have hstrip : pac.stripSlot (readWord mem use.address) use.schema = adjusted := by
    rw [hold, Pac.stripSlot, Pac.signSlot, hcode]
    split
    · exact hpac.strip_sign _ _ _ hraw
    · rfl
  have hmatch : pac.slotMatches (readWord mem use.address) use.schema use.address = true := by
    rw [Pac.slotMatches, hstrip, ← hold, decide_eq_true rfl, Bool.or_true]
  have hcallable : pac.makeCallable (pac.stripCode r) = r := by
    have hsigned := hr.signed
    rw [Pac.makeCallable, if_neg hr.nonzero] at hsigned
    rw [Pac.makeCallable, if_neg hr.stripped]
    exact (congrArg (fun v ↦ pac.signKey v .ia 0) (hpac.strip_strip r .ia)).trans hsigned
  have hold0 : readWord mem use.address ≠ 0 := by rwa [hold]
  have hfits : (plan.sites ++ [(⟨use.address, readWord mem use.address, r, use.addend, use.schema,
      use.weakImport⟩ : RebindSite)]).length ≤ rebindMaxSites := by
    rw [List.length_append]
    exact hroom
  refine ⟨⟨_, hfits, plan.originalsAgree, plan.original⟩, ?_, rfl⟩
  rw [addSite, hnew]
  dsimp only
  rw [dif_neg (Nat.not_le_of_lt hroom), if_neg (fun h ↦ hold0 h.1),
    if_neg (fun h ↦ by rw [hmatch] at h; exact Bool.noConfusion h.2), if_neg hold0, hstrip,
    checkedAdjust_cancel hadjust]
  simp only [hcallable]

/-! ## What a preparation finds -/

variable {plan plan' : RebindPlan} {use : SiteUse} {uses rest : List SiteUse} {stops : Bool}

/-- A use that is added is of a slot that is there already, or is put behind the others. -/
theorem addSite_ok (h : addSite pac mem plan use = (.ok, plan')) :
    (∃ existing, plan.sites.find? (fun site ↦ site.address = use.address) = some existing ∧
      (existing.schema = use.schema ∧ existing.addend = use.addend) ∧ plan' = plan) ∨
    (plan.sites.find? (fun site ↦ site.address = use.address) = none ∧
      plan.sites.length < rebindMaxSites ∧
      ∃ site, useOf site = use ∧ plan'.sites = plan.sites ++ [site]) := by
  unfold addSite at h
  split at h
  · rename_i existing hfind
    by_cases hsame : existing.schema = use.schema ∧ existing.addend = use.addend
    · rw [if_pos hsame] at h
      cases h
      exact .inl ⟨existing, hfind, hsame, rfl⟩
    · rw [if_neg hsame] at h
      cases h
  · rename_i hfind
    refine .inr ⟨hfind, ?_⟩
    split at h
    · cases h
    · rename_i hroom
      dsimp only at h
      refine ⟨Nat.lt_of_not_ge hroom, ?_⟩
      split at h
      · cases h
      · split at h
        · cases h
        · split at h
          · cases h
          · cases h
            exact ⟨_, rfl, rfl⟩

theorem addSites_cons (h : addSites pac mem stops (use :: rest) plan = ([], plan')) :
    ∃ mid, addSite pac mem plan use = (.ok, mid) ∧
      addSites pac mem stops rest mid = ([], plan') := by
  rw [addSites] at h
  split at h
  · rename_i hok
    exact ⟨_, Prod.ext hok rfl, h⟩
  · split at h <;> cases h

/-- The answers that are collected are refusals. -/
theorem addSites_errors (pac : Pac) (mem : UIntPtr → Byte) (stops : Bool) (uses : List SiteUse)
    (plan : RebindPlan) : .ok ∉ (addSites pac mem stops uses plan).1 := by
  induction uses generalizing plan with
  | nil => nofun
  | cons use rest ih =>
    rw [addSites]
    split
    · exact ih _
    · rename_i hok
      split
      · rw [List.mem_singleton]
        exact fun h ↦ hok h.symm
      · rw [List.mem_cons, not_or]
        exact ⟨fun h ↦ hok h.symm, ih _⟩

/-- Sites found through some uses: every one through a use, every use at a site, and no slot
twice. -/
structure Found (uses : List SiteUse) (sites : List RebindSite) : Prop where
  through : ∀ site ∈ sites, useOf site ∈ uses
  all : ∀ use ∈ uses, ∃ site ∈ sites, site.address = use.address
  nodup : (sites.map RebindSite.address).Nodup

theorem Found.addSite (hfound : Found uses plan.sites)
    (h : HookKit.addSite pac mem plan use = (.ok, plan')) :
    Found (uses ++ [use]) plan'.sites := by
  obtain ⟨existing, hfind, hsame, rfl⟩ | ⟨hfind, -, site, rfl, hsites⟩ := addSite_ok h
  · have hmem := List.mem_of_find?_eq_some hfind
    have haddress : existing.address = use.address := by simpa using List.find?_some hfind
    refine ⟨fun site hsite ↦ List.mem_append_left _ (hfound.through site hsite), fun use' huse ↦ ?_,
      hfound.nodup⟩
    rcases List.mem_append.mp huse with huse | huse
    · exact hfound.all use' huse
    · rw [List.mem_singleton.mp huse]
      exact ⟨existing, hmem, haddress⟩
  · have hnew := List.find?_eq_none.mp hfind
    rw [hsites]
    refine ⟨fun site' hsite ↦ ?_, fun use' huse ↦ ?_, ?_⟩
    · rcases List.mem_append.mp hsite with hsite | hsite
      · exact List.mem_append_left _ (hfound.through site' hsite)
      · rw [List.mem_singleton.mp hsite]
        exact List.mem_append_right _ (List.mem_singleton_self _)
    · rcases List.mem_append.mp huse with huse | huse
      · obtain ⟨site', hsite, haddress⟩ := hfound.all use' huse
        exact ⟨site', List.mem_append_left _ hsite, haddress⟩
      · rw [List.mem_singleton.mp huse]
        exact ⟨site, List.mem_append_right _ (List.mem_singleton_self _), rfl⟩
    · rw [List.map_append, List.nodup_append]
      refine ⟨hfound.nodup, List.nodup_singleton _, fun a ha b hb hab ↦ ?_⟩
      obtain ⟨site', hsite, rfl⟩ := List.mem_map.mp ha
      rw [List.map_singleton, List.mem_singleton] at hb
      exact hnew site' hsite (decide_eq_true (hab.trans hb))

theorem Found.addSites {before : List SiteUse} (hfound : Found before plan.sites)
    (h : HookKit.addSites pac mem stops uses plan = ([], plan')) :
    Found (before ++ uses) plan'.sites := by
  induction uses generalizing before plan with
  | nil =>
    cases h
    rwa [List.append_nil]
  | cons use rest ih =>
    obtain ⟨mid, hfirst, hrest⟩ := addSites_cons h
    have := ih (hfound.addSite hfirst) hrest
    rwa [List.append_assoc] at this

theorem addSites_found (h : addSites pac mem stops uses .empty = ([], plan)) :
    Found uses plan.sites :=
  (show Found [] RebindPlan.empty.sites from ⟨nofun, nofun, List.nodup_nil⟩).addSites h

/-- Some use cannot be added, or all of them are. -/
theorem rebindPrepare_cases (pac : Pac) (mem : UIntPtr → Byte) (found : ImportUses) :
    (rebindPrepare pac mem found).1 ∈
        [RebindStatus.tooManySites, .pacMismatch, .malformedImage] ∨
      ∃ added, addSites pac mem found.stops found.uses .empty = ([], added) ∧
        rebindPrepare pac mem found =
          if found.ended ≠ .ok then (found.ended, added) else finalizePlan added := by
  have herrors := addSites_errors pac mem found.stops found.uses .empty
  unfold rebindPrepare
  generalize addSites pac mem found.stops found.uses .empty = added at herrors ⊢
  obtain ⟨errors, added⟩ := added
  dsimp only at herrors ⊢
  by_cases hoverflow : AddSiteStatus.overflow ∈ errors
  · rw [if_pos hoverflow]
    exact .inl (by simp)
  · by_cases hmismatch : AddSiteStatus.pacMismatch ∈ errors
    · rw [if_neg hoverflow, if_pos hmismatch]
      exact .inl (by simp)
    · by_cases hmalformed : AddSiteStatus.malformed ∈ errors
      · rw [if_neg hoverflow, if_neg hmismatch, if_pos hmalformed]
        exact .inl (by simp)
      · have hnil : errors = [] := by
          refine List.eq_nil_iff_forall_not_mem.mpr fun status hmem ↦ ?_
          cases status <;> contradiction
        rw [if_neg hoverflow, if_neg hmismatch, if_neg hmalformed, hnil]
        exact .inr ⟨added, rfl, rfl⟩

/-- A preparation that succeeds has added all the uses, and there are some. -/
theorem rebindPrepare_ok {found : ImportUses} (h : rebindPrepare pac mem found = (.ok, plan)) :
    ∃ added, addSites pac mem found.stops found.uses .empty = ([], added) ∧ found.ended = .ok ∧
      added.sites ≠ [] ∧ plan.sites = added.sites := by
  obtain hrefused | ⟨added, hadded, heq⟩ := rebindPrepare_cases pac mem found
  · rw [h] at hrefused
    simp at hrefused
  · rw [heq] at h
    split at h
    · rename_i hended
      exact absurd (congrArg Prod.fst h) hended
    · rename_i hended
      unfold finalizePlan at h
      split at h
      · cases h
      · rename_i first rest hsites
        cases h
        exact ⟨added, hadded, not_not.mp hended, by rw [hsites]; nofun, rfl⟩

/-- A preparation that finds nothing was told of no use. -/
theorem rebindPrepare_notFound {found : ImportUses}
    (h : rebindPrepare pac mem found = (.notFound, plan)) : found.uses = [] := by
  obtain hrefused | ⟨added, hadded, heq⟩ := rebindPrepare_cases pac mem found
  · rw [h] at hrefused
    simp at hrefused
  · rw [heq] at h
    split at h
    · exact found.quiet (congrArg Prod.fst h)
    · unfold finalizePlan at h
      split at h
      · rename_i hsites
        refine List.eq_nil_iff_forall_not_mem.mpr fun use huse ↦ ?_
        obtain ⟨site, hsite, -⟩ := (addSites_found hadded).all use huse
        rw [hsites] at hsite
        cases hsite
      · cases h

/-- Without uses it does not matter what the slots hold. -/
theorem rebindPrepare_nil {found : ImportUses} (h : found.uses = []) :
    rebindPrepare pac mem found = rebindPrepare pac mem' found := by
  unfold rebindPrepare
  rw [h]
  rfl

/-! ## The same sites again -/

/-- A site as it is found with the replacement in its slot. -/
def refresh (r : UIntPtr) (mem : UIntPtr → Byte) (site : RebindSite) : RebindSite :=
  { site with original := readWord mem site.address, callableOriginal := r }

@[simp] theorem refresh_address (r : UIntPtr) (mem : UIntPtr → Byte) (site : RebindSite) :
    (refresh r mem site).address = site.address := by
  rw [refresh]

@[simp] theorem refresh_schema (r : UIntPtr) (mem : UIntPtr → Byte) (site : RebindSite) :
    (refresh r mem site).schema = site.schema := by
  rw [refresh]

@[simp] theorem refresh_addend (r : UIntPtr) (mem : UIntPtr → Byte) (site : RebindSite) :
    (refresh r mem site).addend = site.addend := by
  rw [refresh]

@[simp] theorem useOf_refresh (r : UIntPtr) (mem : UIntPtr → Byte) (site : RebindSite) :
    useOf (refresh r mem site) = useOf site := by
  rw [refresh, useOf, useOf]

theorem addSite_refresh (hpac : pac.Lawful) (hr : CallableCode pac r) {again : RebindPlan}
    (hrep : Represents pac r use) (hholds : Holds pac r mem' use)
    (h : addSite pac mem plan use = (.ok, plan'))
    (hsites : again.sites = plan.sites.map (refresh r mem')) :
    ∃ again', addSite pac mem' again use = (.ok, again') ∧
      again'.sites = plan'.sites.map (refresh r mem') := by
  have hfind : again.sites.find? (fun site ↦ site.address = use.address) =
      (plan.sites.find? fun site ↦ site.address = use.address).map (refresh r mem') := by
    rw [hsites, List.find?_map]
    simp only [Function.comp_def, refresh_address]
  obtain ⟨existing, hfirst, hsame, rfl⟩ | ⟨hfirst, hroom, site, rfl, hnew⟩ := addSite_ok h
  · refine ⟨again, ?_, hsites⟩
    rw [addSite, hfind, hfirst]
    simp only [Option.map_some, refresh_schema, refresh_addend, if_pos hsame]
  · rw [hfirst] at hfind
    obtain ⟨again', hagain, hsites'⟩ := addSite_of_holds hpac hr hrep hholds hfind (by
      rw [hsites, List.length_map]
      exact hroom)
    refine ⟨again', hagain, ?_⟩
    rw [hsites', hnew, hsites, List.map_append]
    rfl

theorem addSites_refresh (hpac : pac.Lawful) (hr : CallableCode pac r) {again : RebindPlan}
    (hrep : ∀ use ∈ uses, Represents pac r use) (hholds : ∀ use ∈ uses, Holds pac r mem' use)
    (h : addSites pac mem stops uses plan = ([], plan'))
    (hsites : again.sites = plan.sites.map (refresh r mem')) :
    ∃ again', addSites pac mem' stops uses again = ([], again') ∧
      again'.sites = plan'.sites.map (refresh r mem') := by
  induction uses generalizing plan again with
  | nil =>
    cases h
    exact ⟨again, rfl, hsites⟩
  | cons use rest ih =>
    obtain ⟨mid, hfirst, hrest⟩ := addSites_cons h
    obtain ⟨mid', hfirst', hsites'⟩ := addSite_refresh hpac hr (hrep use List.mem_cons_self)
      (hholds use List.mem_cons_self) hfirst hsites
    obtain ⟨again', hrest', hsites''⟩ := ih
      (fun use huse ↦ hrep use (List.mem_cons_of_mem _ huse))
      (fun use huse ↦ hholds use (List.mem_cons_of_mem _ huse)) hrest hsites'
    refine ⟨again', ?_, hsites''⟩
    rw [addSites, hfirst']
    exact hrest'

/-- All the sites of a plan have the replacement as their original. -/
structure Chained (r : UIntPtr) (plan : RebindPlan) : Prop where
  agree : plan.originalsAgree = true
  original : plan.original = r

theorem rebindPrepare_refresh (hpac : pac.Lawful) (hr : CallableCode pac r) {found : ImportUses}
    (hrep : ∀ use ∈ found.uses, Represents pac r use)
    (hholds : ∀ use ∈ found.uses, Holds pac r mem' use)
    (h : rebindPrepare pac mem found = (.ok, plan)) :
    ∃ again, rebindPrepare pac mem' found = (.ok, again) ∧
      again.sites = plan.sites.map (refresh r mem') ∧ Chained r again := by
  obtain ⟨added, hadded, hended, hne, hsites⟩ := rebindPrepare_ok h
  obtain ⟨again, hagain, hsites'⟩ := addSites_refresh hpac hr hrep hholds hadded
    (show RebindPlan.empty.sites = _ from rfl)
  have hcallable : ∀ site ∈ again.sites, site.callableOriginal = r := by
    intro site hsite
    rw [hsites'] at hsite
    obtain ⟨site', -, rfl⟩ := List.mem_map.mp hsite
    rfl
  unfold rebindPrepare
  rw [hagain]
  dsimp only
  rw [if_neg List.not_mem_nil, if_neg List.not_mem_nil, if_neg List.not_mem_nil,
    if_neg (not_not_intro hended), finalizePlan]
  split
  · rename_i hnil
    rw [hsites', List.map_eq_nil_iff] at hnil
    exact absurd hnil hne
  · rename_i first rest hcons
    rw [hcons] at hcallable
    have hfirst := hcallable first List.mem_cons_self
    refine ⟨_, rfl, hsites'.trans (by rw [hsites]), ?_, hfirst⟩
    refine List.all_eq_true.mpr fun site hsite ↦ decide_eq_true ?_
    rw [hfirst]
    exact hcallable site (List.mem_cons_of_mem _ hsite)

/-! ## All the images -/

variable {write : Option (RebindWrite σ)}
  {bundle bundle₁ : RebindBundle σ} {again again₁ : RebindBundle τ} {found : ImportUses}
  {images : List ImportUses}

/-- The sites of an image that no image before has. -/
def keptSites (bundle : RebindBundle σ) (plan : RebindPlan) : List RebindSite :=
  plan.sites.filter fun site ↦ !bundle.contains site.address

theorem keptSites_fits (bundle : RebindBundle σ) (plan : RebindPlan) :
    (keptSites bundle plan).length ≤ rebindMaxSites :=
  (List.length_filter_le _ _).trans plan.fits

/-- The bundle with the sites of one more image. -/
def withImage (bundle : RebindBundle σ) (write : Option (RebindWrite σ)) (plan : RebindPlan) :
    RebindBundle σ where
  entries := bundle.entries ++ [⟨write, { plan with
    sites := keptSites bundle plan
    fits := keptSites_fits bundle plan }⟩]
  originalsAgree := bundle.originalsAgree && plan.originalsAgree &&
    (bundle.entries.isEmpty || bundle.original = plan.original)
  original := if bundle.entries.isEmpty then plan.original else bundle.original

theorem collectImage_of_ok (h : rebindPrepare pac mem found = (.ok, plan)) :
    collectImage pac mem write bundle found =
      if keptSites bundle plan = [] then .ok bundle else .ok (withImage bundle write plan) := by
  rw [collectImage, h]
  rfl

theorem collectImage_ok (h : collectImage pac mem write bundle found = .ok bundle₁) :
    (found.uses = [] ∧ bundle₁ = bundle) ∨
      ∃ plan, rebindPrepare pac mem found = (.ok, plan) ∧
        bundle₁ = if keptSites bundle plan = [] then bundle else withImage bundle write plan := by
  have hcopy := h
  unfold collectImage at h
  split at h
  · rename_i hprepared
    cases h
    exact .inl ⟨rebindPrepare_notFound hprepared, rfl⟩
  · rename_i plan hprepared
    refine .inr ⟨plan, hprepared, ?_⟩
    rw [collectImage_of_ok hprepared] at hcopy
    split at hcopy <;> rename_i hkept <;> cases hcopy
    · rw [if_pos hkept]
    · rw [if_neg hkept]
  · cases h

theorem contains_iff (bundle : RebindBundle σ) (address : UIntPtr) :
    bundle.contains address = true ↔ ∃ site ∈ slotsOf bundle.entries, site.address = address := by
  simp only [RebindBundle.contains, slotsOf, List.any_eq_true, decide_eq_true_eq, List.mem_flatMap]
  constructor
  · rintro ⟨entry, hentry, site, hsite, heq⟩
    exact ⟨site, ⟨entry, hentry, hsite⟩, heq⟩
  · rintro ⟨site, ⟨entry, hentry, hsite⟩, heq⟩
    exact ⟨entry, hentry, site, hsite, heq⟩

theorem slotsOf_withImage (bundle : RebindBundle σ) (write : Option (RebindWrite σ))
    (plan : RebindPlan) :
    slotsOf (withImage bundle write plan).entries = slotsOf bundle.entries ++
    keptSites bundle plan := by
  rw [withImage, slotsOf, List.flatMap_append, List.flatMap_singleton]
  rfl

/-- The slots of the next image that are not in the bundle come behind those that are. -/
theorem Found.collectImage (hfound : Found uses (slotsOf bundle.entries))
    (h : HookKit.collectImage pac mem write bundle found = .ok bundle₁) :
    Found (uses ++ found.uses) (slotsOf bundle₁.entries) := by
  obtain ⟨hnil, rfl⟩ | ⟨plan, hprepared, rfl⟩ := collectImage_ok h
  · rwa [hnil, List.append_nil]
  · obtain ⟨added, hadded, -, -, hsites⟩ := rebindPrepare_ok hprepared
    have himage := addSites_found hadded
    rw [← hsites] at himage
    have hslots : slotsOf (if keptSites bundle plan = [] then bundle
        else withImage bundle write plan).entries = slotsOf bundle.entries ++
          keptSites bundle plan := by
      split
      · rename_i hkept
        rw [hkept, List.append_nil]
      · exact slotsOf_withImage bundle write plan
    rw [hslots]
    refine ⟨fun site hsite ↦ ?_, fun use huse ↦ ?_, ?_⟩
    · rcases List.mem_append.mp hsite with hsite | hsite
      · exact List.mem_append_left _ (hfound.through site hsite)
      · exact List.mem_append_right _ (himage.through site (List.mem_filter.mp hsite).1)
    · rcases List.mem_append.mp huse with huse | huse
      · obtain ⟨site, hsite, heq⟩ := hfound.all use huse
        exact ⟨site, List.mem_append_left _ hsite, heq⟩
      · obtain ⟨site, hsite, heq⟩ := himage.all use huse
        by_cases hcontains : bundle.contains site.address = true
        · obtain ⟨site', hsite', heq'⟩ := (contains_iff bundle _).mp hcontains
          exact ⟨site', List.mem_append_left _ hsite', heq'.trans heq⟩
        · refine ⟨site, List.mem_append_right _ (List.mem_filter.mpr ⟨hsite, ?_⟩), heq⟩
          rw [Bool.eq_false_iff.mpr hcontains]
          rfl
    · rw [List.map_append, List.nodup_append]
      refine ⟨hfound.nodup, himage.nodup.sublist (List.filter_sublist.map _),
        fun a ha b hb hab ↦ ?_⟩
      obtain ⟨site, hsite, rfl⟩ := List.mem_map.mp ha
      obtain ⟨site', hsite', rfl⟩ := List.mem_map.mp hb
      have hnot := (List.mem_filter.mp hsite').2
      rw [(contains_iff bundle _).mpr ⟨site, hsite, hab⟩] at hnot
      cases hnot

theorem Found.collectImages (hfound : Found uses (slotsOf bundle.entries))
    (h : HookKit.collectImages pac mem write images bundle = .ok bundle₁) :
    Found (uses ++ images.flatMap ImportUses.uses) (slotsOf bundle₁.entries) := by
  induction images generalizing uses bundle with
  | nil =>
    cases h
    rwa [List.flatMap_nil, List.append_nil]
  | cons found rest ih =>
    rw [HookKit.collectImages] at h
    split at h
    · rename_i mid hfirst
      have := ih (hfound.collectImage hfirst) h
      rwa [List.append_assoc] at this
    · cases h

/-- Every image of the bundle is written by the writer of the engine, and has a slot. -/
theorem collectImages_entries
    (hbundle : ∀ entry ∈ bundle.entries, entry.write = write ∧ entry.plan.sites ≠ [])
    (h : collectImages pac mem write images bundle = .ok bundle₁) :
    ∀ entry ∈ bundle₁.entries, entry.write = write ∧ entry.plan.sites ≠ [] := by
  induction images generalizing bundle with
  | nil =>
    cases h
    exact hbundle
  | cons found rest ih =>
    rw [collectImages] at h
    split at h
    · rename_i mid hfirst
      refine ih (fun entry hentry ↦ ?_) h
      obtain ⟨-, rfl⟩ | ⟨plan, -, rfl⟩ := collectImage_ok hfirst
      · exact hbundle entry hentry
      · split at hentry
        · exact hbundle entry hentry
        · rename_i hkept
          rcases List.mem_append.mp hentry with hentry | hentry
          · exact hbundle entry hentry
          · rw [List.mem_singleton.mp hentry]
            exact ⟨rfl, hkept⟩
    · cases h

/-- **The same sites in the same images**, and the replacement is the original of them all. -/
structure Refreshed (r : UIntPtr) (mem : UIntPtr → Byte) (bundle : RebindBundle σ)
    (again : RebindBundle τ) : Prop where
  sites : again.entries.map (fun entry ↦ entry.plan.sites) =
    bundle.entries.map fun entry ↦ entry.plan.sites.map (refresh r mem)
  agree : again.originalsAgree = true
  original : again.entries ≠ [] → again.original = r

theorem Refreshed.slots (h : Refreshed r mem' bundle again) :
    slotsOf again.entries = (slotsOf bundle.entries).map (refresh r mem') := by
  rw [slotsOf, slotsOf, List.flatMap_def, List.flatMap_def, h.sites, List.map_flatten, List.map_map]
  rfl

theorem Refreshed.contains (h : Refreshed r mem' bundle again) (address : UIntPtr) :
    again.contains address = bundle.contains address := by
  rw [Bool.eq_iff_iff, contains_iff, contains_iff, h.slots]
  constructor
  · rintro ⟨site, hsite, rfl⟩
    obtain ⟨site', hsite', rfl⟩ := List.mem_map.mp hsite
    exact ⟨site', hsite', (refresh_address _ _ _).symm⟩
  · rintro ⟨site, hsite, rfl⟩
    exact ⟨_, List.mem_map_of_mem hsite, refresh_address _ _ _⟩

theorem Refreshed.collectImage (write' : Option (RebindWrite τ)) (hpac : pac.Lawful)
    (hr : CallableCode pac r)
    (hrep : ∀ use ∈ found.uses, Represents pac r use)
    (hholds : ∀ use ∈ found.uses, Holds pac r mem' use)
    (hrefreshed : Refreshed r mem' bundle again)
    (h : HookKit.collectImage pac mem write bundle found = .ok bundle₁) :
    ∃ again₁, HookKit.collectImage pac mem' write' again found = .ok again₁ ∧
      Refreshed r mem' bundle₁ again₁ := by
  obtain ⟨hnil, rfl⟩ | ⟨plan, hprepared, rfl⟩ := collectImage_ok h
  · have hsame : rebindPrepare pac mem' found = rebindPrepare pac mem found :=
      rebindPrepare_nil hnil
    refine ⟨again, ?_, hrefreshed⟩
    unfold HookKit.collectImage at h ⊢
    rw [hsame]
    split at h
    · rfl
    · rename_i plan hprepared
      obtain ⟨added, hadded, -, hne, -⟩ := rebindPrepare_ok hprepared
      rw [hnil] at hadded
      cases hadded
      exact absurd rfl hne
    · cases h
  · obtain ⟨plan', hprepared', hsites, hchained⟩ :=
      rebindPrepare_refresh hpac hr hrep hholds hprepared
    have hkept : keptSites again plan' = (keptSites bundle plan).map (refresh r mem') := by
      rw [keptSites, keptSites, hsites, List.filter_map]
      congr 1
      refine List.filter_congr fun site _ ↦ ?_
      rw [Function.comp, refresh_address, hrefreshed.contains]
    rw [collectImage_of_ok hprepared', hkept]
    by_cases hempty : keptSites bundle plan = []
    · rw [if_pos (by rw [hempty]; rfl), if_pos hempty]
      exact ⟨again, rfl, hrefreshed⟩
    · rw [if_neg (by rwa [List.map_eq_nil_iff]), if_neg hempty]
      refine ⟨_, rfl, ?_, ?_, fun _ ↦ ?_⟩
      · rw [withImage, withImage, List.map_append, List.map_append, hrefreshed.sites]
        exact congrArg (_ ++ [·]) hkept
      · rw [withImage]
        simp only [hrefreshed.agree, hchained.agree, hchained.original,
          Bool.and_self, Bool.true_and,
          Bool.or_eq_true, decide_eq_true_eq, List.isEmpty_iff]
        exact (Decidable.em (again.entries = [])).imp_right hrefreshed.original
      · rw [withImage]
        dsimp only
        split
        · exact hchained.original
        · rename_i hentries
          exact hrefreshed.original fun hnil ↦ hentries (by rw [hnil]; rfl)

theorem Refreshed.collectImages (write' : Option (RebindWrite τ)) (hpac : pac.Lawful)
    (hr : CallableCode pac r)
    (hrep : ∀ found ∈ images, ∀ use ∈ found.uses, Represents pac r use)
    (hholds : ∀ found ∈ images, ∀ use ∈ found.uses, Holds pac r mem' use)
    (hrefreshed : Refreshed r mem' bundle again)
    (h : HookKit.collectImages pac mem write images bundle = .ok bundle₁) :
    ∃ again₁, HookKit.collectImages pac mem' write' images again = .ok again₁ ∧
      Refreshed r mem' bundle₁ again₁ := by
  induction images generalizing bundle again with
  | nil =>
    cases h
    exact ⟨again, rfl, hrefreshed⟩
  | cons found rest ih =>
    rw [HookKit.collectImages] at h
    split at h
    · rename_i mid hfirst
      obtain ⟨again', hfirst', hrefreshed'⟩ := hrefreshed.collectImage write' hpac hr
        (hrep found List.mem_cons_self) (hholds found List.mem_cons_self) hfirst
      obtain ⟨again₁, hrest, hrefreshed₁⟩ := ih
        (fun found' hmem ↦ hrep found' (List.mem_cons_of_mem _ hmem))
        (fun found' hmem ↦ hholds found' (List.mem_cons_of_mem _ hmem)) hrefreshed' h
      refine ⟨again₁, ?_, hrefreshed₁⟩
      rw [HookKit.collectImages, hfirst']
      exact hrest
    · cases h

/-! ## The round trip -/

/-- Two uses are of slots beside each other, or of one slot and describe it in the same way. -/
def Consistent (images : List ImportUses) : Prop :=
  ∀ u ∈ images.flatMap ImportUses.uses, ∀ v ∈ images.flatMap ImportUses.uses,
    (u.address = v.address ∧ u.schema = v.schema ∧ u.addend = v.addend) ∨
      WordMemory.Separate u.address v.address

theorem not_separate_self (a : UIntPtr) : ¬ WordMemory.Separate a a := by
  rintro ⟨h, -⟩
  rw [BitVec.sub_self] at h
  exact absurd h (by decide)

/-- The slots of the bundle lie beside each other. -/
theorem Found.separate {sites : List RebindSite}
    (h : Found (images.flatMap ImportUses.uses) sites) (hconsistent : Consistent images) :
    sites.Pairwise fun a b ↦ WordMemory.Separate a.address b.address := by
  refine (List.pairwise_map.mp h.nodup).imp_of_mem fun ha hb hne ↦ ?_
  exact (hconsistent _ (h.through _ ha) _ (h.through _ hb)).resolve_left fun hsame ↦ hne hsame.1

/-- If every slot of the bundle holds the replacement, so does the slot of every use. -/
theorem Found.holds {sites : List RebindSite} (h : Found (images.flatMap ImportUses.uses) sites)
    (hconsistent : Consistent images)
    (hsites : ∀ site ∈ sites, ∃ value, replacementForSite pac site r = some value ∧
      readWord mem' site.address = value) :
    ∀ found ∈ images, ∀ use ∈ found.uses, Holds pac r mem' use := by
  intro found hfound use huse
  have hmem := List.mem_flatMap.mpr ⟨found, hfound, huse⟩
  obtain ⟨site, hsite, haddress⟩ := h.all use hmem
  obtain ⟨value, hvalue, hread⟩ := hsites site hsite
  obtain ⟨-, hschema, haddend⟩ := (hconsistent _ (h.through site hsite) use hmem).resolve_right
    fun hsep ↦ not_separate_self use.address (by
      have hsep : WordMemory.Separate site.address use.address := hsep
      rwa [haddress] at hsep)
  rw [replacementForSite_eq, slotValue] at hvalue
  rw [Holds, slotValue, ← haddend, ← hschema, ← haddress, hread]
  exact hvalue

/-- A bundle is accepted by a commit that asks for a predecessor, and goes through if nothing else
stands in its way. -/
structure Accepted (pac : Pac) (mem : UIntPtr → Byte) (predecessor : UIntPtr)
    (write : Option (RebindWrite σ)) (bundle : RebindBundle σ) : Prop where
  matched : ∀ sink, required sink = some predecessor →
    ∀ entry ∈ bundle.entries, predecessorMatches entry.plan sink = true
  completes : ∀ next, (∀ site ∈ slotsOf bundle.entries, (replacementForSite pac site next).isSome) →
    ∀ w, write = some w → HonestWriter w → (∀ a v world, (w a v world).1 = .complete) →
    ∀ s, s.world.mem = mem → required s.sink = some predecessor →
      (rebindCommitOne pac write next (.bundle bundle) s).1 = .complete

/-- Sites that hold what they were found with and have the predecessor as their original. -/
theorem accepted_of_current {predecessor : UIntPtr}
    (hsep : (slotsOf bundle.entries).Pairwise fun a b ↦ WordMemory.Separate a.address b.address)
    (hentries : ∀ entry ∈ bundle.entries, entry.write = write ∧ entry.plan.sites ≠ [])
    (hcurrent : ∀ site ∈ slotsOf bundle.entries, readWord mem site.address = site.original ∧
      site.callableOriginal = predecessor) : Accepted pac mem predecessor write bundle := by
  have hmatched : ∀ sink, required sink = some predecessor →
      ∀ entry ∈ bundle.entries, predecessorMatches entry.plan sink = true := by
    intro sink hrequired entry hentry
    have hrequired : sink.bind RebindSink.requiredPredecessor = some predecessor := hrequired
    rw [predecessorMatches, hrequired]
    refine List.all_eq_true.mpr fun site hsite ↦ decide_eq_true ?_
    exact (hcurrent site (List.mem_flatMap.mpr ⟨entry, hentry, hsite⟩)).2
  refine ⟨hmatched, fun next hnext w hw honest hcomplete s hs hrequired ↦ ?_⟩
  have hwrite := fun entry hentry ↦ (hentries entry hentry).1
  have hcells := cells_slotTasks pac next bundle.entries
  have htasks : ∀ t ∈ bundle.entries.flatMap (slotTasks pac next),
      t.cell ∈ slotsOf bundle.entries ∧ ∀ world, (t.write world).1 = .complete := by
    intro t ht
    obtain ⟨entry, hentry, ht⟩ := List.mem_flatMap.mp ht
    obtain ⟨site, hsite, rfl⟩ := mem_slotTasks.mp ht
    refine ⟨List.mem_flatMap.mpr ⟨entry, hentry, hsite⟩, fun world ↦ ?_⟩
    rw [hwrite entry hentry, hw]
    exact hcomplete _ _ _
  obtain ⟨world, hworld⟩ := exists_writeAll (w := s.world)
    (honest_slotTasks pac next fun entry hentry w' hw' ↦ by
      rw [hwrite entry hentry, hw] at hw'
      cases hw'
      exact honest)
    (by rw [hcells]; exact hsep)
    (fun t ht ↦ by
      have := (hcurrent t.cell (htasks t ht).1).1
      rw [← hs] at this
      exact this)
    (fun t ht ↦ (htasks t ht).2)
  obtain ⟨s', hs', -⟩ := @commitEntries_written _ s pac next bundle.entries 0 [] world (by decide)
    (fun entry hentry ↦ ⟨by rw [hwrite entry hentry, hw]; rfl, (hentries entry hentry).2,
      fun site hsite ↦ hnext site (List.mem_flatMap.mpr ⟨entry, hentry, hsite⟩),
      hmatched s.sink hrequired entry hentry⟩) hworld
  rw [List.append_nil] at hs'
  obtain ⟨sink, heq, -⟩ := rebindCommitOne_eq pac write next (.bundle bundle) s
  rw [heq]
  exact congrArg Prod.fst hs'

theorem rebindPrepareBundle_ok {requirement : OriginalRequirement}
    (h : rebindPrepareBundle pac mem write requirement images = .ok bundle) :
    collectImages pac mem write images .create = .ok bundle ∧ bundle.entries ≠ [] := by
  unfold rebindPrepareBundle at h
  split at h
  · cases h
  · rename_i bundle' hcollect
    split at h
    · cases h
    · rename_i hentries
      split at h
      · cases h
      · cases h
        exact ⟨hcollect, hentries⟩

theorem collectImages_create
    (h : collectImages pac mem write images .create = .ok bundle) :
    Found (images.flatMap ImportUses.uses) (slotsOf bundle.entries) ∧
      ∀ entry ∈ bundle.entries, entry.write = write ∧ entry.plan.sites ≠ [] :=
  ⟨(show Found [] (slotsOf RebindBundle.create.entries) from
      ⟨nofun, nofun, List.nodup_nil⟩).collectImages h,
    collectImages_entries (fun _ hentry ↦ absurd hentry List.not_mem_nil) h⟩

/-- With the replacement in every slot of the bundle, the same request is prepared again. -/
theorem rebindPrepareBundle_again (hpac : pac.Lawful) (hr : CallableCode pac r)
    (hconsistent : Consistent images)
    (hrep : ∀ found ∈ images, ∀ use ∈ found.uses, Represents pac r use)
    {requirement : OriginalRequirement}
    (hprepared : rebindPrepareBundle pac mem write requirement images = .ok bundle)
    (hsites : ∀ site ∈ slotsOf bundle.entries, ∃ value,
      replacementForSite pac site r = some value ∧ readWord mem' site.address = value)
    (write' : Option (RebindWrite τ)) :
    ∃ again, rebindPrepareBundle pac mem' write' requirement images = .ok again ∧
      Refreshed r mem' bundle again ∧ again.original = r ∧ Accepted pac mem' r write' again := by
  obtain ⟨hcollect, hne⟩ := rebindPrepareBundle_ok hprepared
  obtain ⟨hfound, hentries⟩ := collectImages_create hcollect
  have hsep := hfound.separate hconsistent
  obtain ⟨again, hagain, hrefreshed⟩ := Refreshed.collectImages write' hpac hr hrep
    (hfound.holds hconsistent hsites)
    (show Refreshed r _ .create .create from ⟨rfl, rfl, fun h ↦ absurd rfl h⟩) hcollect
  have hne' : again.entries ≠ [] := by
    intro hnil
    have := hrefreshed.sites
    rw [hnil, List.map_nil, eq_comm, List.map_eq_nil_iff] at this
    exact hne this
  have horiginal := hrefreshed.original hne'
  have hslots := hrefreshed.slots
  refine ⟨again, ?_, hrefreshed, horiginal, ?_⟩
  · rw [rebindPrepareBundle, hagain]
    dsimp only
    rw [if_neg hne', if_neg]
    rintro ⟨-, h⟩
    rw [hrefreshed.agree, horiginal] at h
    exact hr.nonzero (by simpa using h)
  · refine accepted_of_current ?_ (collectImages_create hagain).2 fun site hsite ↦ ?_
    · rw [hslots, List.pairwise_map]
      simp only [refresh_address]
      exact hsep
    · rw [hslots] at hsite
      obtain ⟨site', -, rfl⟩ := List.mem_map.mp hsite
      exact ⟨rfl, rfl⟩

/-- After a complete commit every slot of the bundle holds the replacement. -/
theorem rebindCommitOne_complete {s : RebindState σ}
    (honest : ∀ entry ∈ bundle.entries, ∀ w, entry.write = some w → HonestWriter w)
    (hsep : (slotsOf bundle.entries).Pairwise fun a b ↦ WordMemory.Separate a.address b.address)
    (h : (rebindCommitOne pac write r (.bundle bundle) s).1 = .complete) :
    ∀ site ∈ slotsOf bundle.entries, ∃ value, replacementForSite pac site r = some value ∧
      readWord (rebindCommitOne pac write r (.bundle bundle) s).2.world.mem
      site.address = value := by
  obtain ⟨sink, heq, -⟩ := rebindCommitOne_eq pac write r (.bundle bundle) s
  rw [heq] at h ⊢
  exact commitEntries_complete honest hsep h

/-- **A rebind chains onto a rebind.**  After a complete commit of a callable replacement that every
slot can represent, the same request finds the same sites, the replacement is the callable original
of them all, and a commit that asks for it as the predecessor is accepted. -/
theorem rebind_chains (pac : Pac) (hpac : pac.Lawful) (r : UIntPtr) (hr : CallableCode pac r)
    (images : List ImportUses) (hconsistent : Consistent images)
    (hrep : ∀ found ∈ images, ∀ use ∈ found.uses, Represents pac r use)
    (mem : UIntPtr → Byte) (write : Option (RebindWrite σ))
    (honest : ∀ w, write = some w → HonestWriter w) (requirement : OriginalRequirement)
    (bundle : RebindBundle σ)
    (hprepared : rebindPrepareBundle pac mem write requirement images = .ok bundle)
    (s : RebindState σ) (hcomplete : (rebindCommitOne pac write r (.bundle bundle) s).1 = .complete)
    (write' : Option (RebindWrite τ)) :
    ∃ again, rebindPrepareBundle pac (rebindCommitOne pac write r (.bundle bundle) s).2.world.mem
        write' requirement images = .ok again ∧
      again.entries.map (fun entry ↦ entry.plan.sites.map useOf) =
        bundle.entries.map (fun entry ↦ entry.plan.sites.map useOf) ∧
      (∀ site ∈ slotsOf again.entries, site.callableOriginal = r) ∧
      again.originalsAgree = true ∧ again.original = r ∧
      Accepted pac (rebindCommitOne pac write r (.bundle bundle) s).2.world.mem r write' again := by
  obtain ⟨hfound, hentries⟩ := collectImages_create (rebindPrepareBundle_ok hprepared).1
  have hsites := rebindCommitOne_complete (fun entry hentry w hw ↦ honest w (by
    rw [← (hentries entry hentry).1]
    exact hw)) (hfound.separate hconsistent) hcomplete
  obtain ⟨again, hagain, hrefreshed, horiginal, haccepted⟩ :=
    rebindPrepareBundle_again hpac hr hconsistent hrep hprepared hsites write'
  refine ⟨again, hagain, ?_, fun site hsite ↦ ?_, hrefreshed.agree, horiginal, haccepted⟩
  · have := congrArg (List.map (List.map useOf)) hrefreshed.sites
    rw [List.map_map, List.map_map] at this
    refine this.trans (List.map_congr_left fun entry _ ↦ ?_)
    simp only [Function.comp_def, List.map_map, useOf_refresh]
  · rw [hrefreshed.slots] at hsite
    obtain ⟨site', -, rfl⟩ := List.mem_map.mp hsite
    rfl

/-! ### Some slots -/

/-- The state before a commit. -/
def stateOf (mem : UIntPtr → Byte) : RebindState Unit := ⟨⟨mem, ()⟩, some ⟨none, [], 0⟩, []⟩

/-- A request is prepared and committed by a writer that stores, then prepared again: the outcome of
the commit, and what the second preparation found. -/
def installThenPrepare (pac : Pac) (mem : UIntPtr → Byte) (requirement : OriginalRequirement)
    (r : UIntPtr) (images : List ImportUses) :
    Option (Mutation × Except PrepareDiag (RebindBundle Unit)) :=
  match rebindPrepareBundle pac mem (some storeWriter) requirement images with
  | .error _ => none
  | .ok bundle =>
    let out := rebindCommitOne pac (some storeWriter) r (.bundle bundle) (stateOf mem)
    some (out.1, rebindPrepareBundle pac out.2.world.mem (some storeWriter) requirement images)

/-- Slots with a word each. -/
def memoryOf (words : List (UIntPtr × UIntPtr)) : UIntPtr → Byte :=
  words.foldr (fun word mem ↦ writeWord mem word.1 word.2) fun _ ↦ 0

/-- An image whose metadata names some uses. -/
def imageOf (uses : List SiteUse) : ImportUses := ⟨uses, true, .ok, nofun⟩

/-- **What does not chain**: a replacement that cancels the addend, so that the slot looks like one
of an unresolved import; two images that describe one slot in different ways; slots that overlap.
The commit is complete in all three. -/
theorem install_not_chained :
    ((installThenPrepare .plain (memoryOf [(0x10000, 0x4000)]) .none 0x1000
        [imageOf [⟨0x10000, .zero, -0x1000, false⟩]]).any fun out ↦
      out.1 = .complete && !out.2.isOk) ∧
    ((installThenPrepare .plain (memoryOf [(0x10000, 0x7000)]) .none 0x5000
        [imageOf [⟨0x10000, .zero, 0, false⟩], imageOf [⟨0x10000, .zero, 0x6000, false⟩]]).any
      fun out ↦ out.1 = .complete && !out.2.isOk) ∧
    ((installThenPrepare .plain
        (memoryOf [(0x10000, 0x100003000), (0x10004, 0x500000001)]) .none 0x100002000
        [imageOf [⟨0x10000, .zero, 0, false⟩, ⟨0x10004, .zero, 0, false⟩]]).any
      fun out ↦ out.1 = .complete && out.2.toOption.any fun again ↦ !again.originalsAgree) := by
  decide +kernel

/-- Two images, one slot of them common, with keys, addends and addresses that are all different. -/
def mixedImages : List ImportUses :=
  [imageOf [⟨0x10000, ⟨true, .ia, 7, true⟩, 8, false⟩, ⟨0x10010, .zero, 0, false⟩],
    imageOf [⟨0x10000, ⟨true, .ia, 7, true⟩, 8, false⟩,
      ⟨0x10020, ⟨true, .da, 3, false⟩, -16, false⟩]]

/-- All of them hold what `0x4000` is encoded as. -/
def mixedMemory : UIntPtr → Byte :=
  memoryOf ((mixedImages.flatMap ImportUses.uses).map fun use ↦
    (use.address, (slotValue .test 0x4000 use).getD 0))

/-- The pointer to the replacement. -/
def mixedReplacement : UIntPtr := Pac.testSign 0x9000 .ia 0

/-- What the first preparation finds. -/
def mixedBundle : RebindBundle Unit :=
  match rebindPrepareBundle .test mixedMemory (some storeWriter) .directPredecessor mixedImages with
  | .ok bundle => bundle
  | .error _ => .create

theorem mixedBundle_prepared : rebindPrepareBundle .test mixedMemory (some storeWriter)
    .directPredecessor mixedImages = .ok mixedBundle := by
  have hok : (rebindPrepareBundle .test mixedMemory (some storeWriter) .directPredecessor
      mixedImages).isOk = true := by decide +kernel
  rw [mixedBundle]
  generalize rebindPrepareBundle .test mixedMemory (some storeWriter) .directPredecessor
    mixedImages = prepared at hok ⊢
  cases prepared with
  | ok bundle => rfl
  | error diag => cases hok

theorem mixedImages_chain : ∃ again, rebindPrepareBundle .test
    (rebindCommitOne .test (some storeWriter) mixedReplacement (.bundle mixedBundle)
      (stateOf mixedMemory)).2.world.mem (some storeWriter) .directPredecessor mixedImages =
        .ok again ∧
    again.entries.map (fun entry ↦ entry.plan.sites.map useOf) =
      mixedBundle.entries.map (fun entry ↦ entry.plan.sites.map useOf) ∧
    (∀ site ∈ slotsOf again.entries, site.callableOriginal = mixedReplacement) ∧
    again.originalsAgree = true ∧ again.original = mixedReplacement ∧
    Accepted .test (rebindCommitOne .test (some storeWriter) mixedReplacement (.bundle mixedBundle)
      (stateOf mixedMemory)).2.world.mem mixedReplacement (some storeWriter) again := by
  refine rebind_chains .test Pac.test_lawful mixedReplacement ⟨by decide, by decide, by decide⟩
    mixedImages ?_ ?_ mixedMemory (some storeWriter) ?_ .directPredecessor mixedBundle
    mixedBundle_prepared (stateOf mixedMemory) ?_ (some storeWriter)
  · show ∀ u ∈ mixedImages.flatMap ImportUses.uses, ∀ v ∈ mixedImages.flatMap ImportUses.uses, _
    decide
  · have hall : ∀ use ∈ mixedImages.flatMap ImportUses.uses, ∃ adjusted,
        checkedAdjust (Pac.test.stripCode mixedReplacement) use.addend true = some adjusted ∧
          Pac.testStrip adjusted = adjusted ∧
          Pac.test.signSlot adjusted use.schema use.address ≠ 0 := by
      simp only [mixedImages, imageOf, List.flatMap_cons, List.flatMap_nil, List.cons_append,
        List.nil_append, List.append_nil, List.forall_mem_cons,
          List.not_mem_nil, IsEmpty.forall_iff,
        implies_true, and_true]
      refine ⟨⟨0x9008, ?_⟩, ⟨0x9000, ?_⟩, ⟨0x9008, ?_⟩, ⟨0x8ff0, ?_⟩⟩ <;> decide
    intro found hfound use huse
    obtain ⟨adjusted, hadjust, hraw, hnonzero⟩ :=
      hall use (List.mem_flatMap.mpr ⟨found, hfound, huse⟩)
    exact ⟨adjusted, hadjust, fun _ ↦ hraw, hnonzero⟩
  · rintro w ⟨⟩
    exact storeWriter_honest
  · decide +kernel

end HookKit.Rebind
