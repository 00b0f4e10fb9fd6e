import HookKit.Core.OwnershipKeys
import HookKit.Resolvers.MachOSlices
import HookKit.Resolvers.MachOSpan

/-!
# Image scopes

`HKImageCatalog.c` and `HKImageScope.c`: which loaded images a selector names, and whether an
address lies in one of them.

* `entryMatchesSelector`, `catalogMatch` — the search of the catalog.
* `imageScopeCheck` — the check of an address.
* `Selects`, `Bounds`, `Verdict` — what the check should say, by the images alone.
* `imageScopeCheck_verdict` — it says this, whatever the order of the catalog.
-/

set_option autoImplicit false

namespace HookKit.ImageScope

open MachO LittleEndian Checked

/-! ## The catalog -/

/-- `hk_image_entry_t`. -/
structure ImageEntry where
  path : Option String
  uuidPresent : Bool
  uuid : List Byte
  header : Ptr
  slide : BitVec 64
  isMainExecutable : Bool

mutual

/-- `entry_matches_selector`; the members of a set that is NULL cannot be read. -/
def entryMatchesSelector (e : ImageEntry) : ImageSelector → Option Bool
  | .mk kind path uuid header set =>
    match kind with
    | .anyLoaded => some true
    | .mainExecutable => some e.isMainExecutable
    | .exactPath => some (e.path.isSome && path.isSome && e.path == path)
    | .exactUuid => some (e.uuidPresent && e.uuid == uuid)
    | .exactHeader => some (e.header != 0 && e.header == header)
    | .explicitSet => matchesSet e set

/-- The explicit set of a selector. -/
def matchesSet (e : ImageEntry) : Option (List (Option ImageSelector)) → Option Bool
  | none => none
  | some set => matchesMembers e set

/-- The loop over the members of an explicit set. -/
def matchesMembers (e : ImageEntry) : List (Option ImageSelector) → Option Bool
  | [] => some false
  | sub :: rest => do
    if ← matchesMember e sub then some true else matchesMembers e rest

/-- A member of an explicit set, which may be NULL. -/
def matchesMember (e : ImageEntry) : Option ImageSelector → Option Bool
  | none => some false
  | some sub => entryMatchesSelector e sub

end

variable {σ : Type}

/-- The loop of `hk_image_catalog_match`, from entry `i` on. -/
def catalogMatchFrom (selector : ImageSelector) (visit : σ → Nat → ImageEntry → Option (Bool × σ)) :
    Nat → List ImageEntry → Nat → σ → Option (Nat × σ)
  | _, [], visited, s => some (visited, s)
  | i, e :: rest, visited, s => do
    if ← entryMatchesSelector e selector then
      let (more, s) ← visit s i e
      if more then catalogMatchFrom selector visit (i + 1) rest (visited + 1) s
      else some (visited + 1, s)
    else catalogMatchFrom selector visit (i + 1) rest visited s

/-- `hk_image_catalog_match`: how many entries were visited, and what has become of the context. -/
def catalogMatch (entries : List ImageEntry) (selector : ImageSelector)
    (visit : σ → Nat → ImageEntry → Option (Bool × σ)) (s : σ) : Option (Nat × σ) :=
  catalogMatchFrom selector visit 0 entries 0 s

/-! ## The check -/

/-- `hk_image_scope_status_t`. -/
inductive ScopeStatus where
  | ok | noCatalog | noMatch | uuidMismatch | addressOutside | unreadableImage
deriving DecidableEq, Repr

/-- `scope_ctx_t`, less the request. -/
structure ScopeCtx where
  sawEntry : Bool
  sawUuidMatch : Bool
  sawUnreadable : Bool
  contained : Bool

/-- `size` bytes of the memory at an address. -/
def region (memory : Ptr → Byte) (address : Ptr) (size : Nat) : List Byte :=
  (List.range size).map fun k ↦ memory (address + k)

/-- `scope_visit`. -/
def scopeVisit (memory : Ptr → Byte) (expectUuid : Bool) (expectedUuid : Option (List Byte))
    (address : Ptr) (ctx : ScopeCtx) (_index : Nat) (entry : ImageEntry) :
    Option (Bool × ScopeCtx) :=
  let ctx := { ctx with sawEntry := true }
  if expectUuid ∧ (!entry.uuidPresent ∨ some entry.uuid ≠ expectedUuid) then some (true, ctx)
  else
    let ctx := { ctx with sawUuidMatch := true }
    if entry.header = 0 then some (true, { ctx with sawUnreadable := true })
    else do
      -- the header itself tells how far it may be read
      match ← peekHeader (region memory entry.header headerSize) with
      | .error _ => some (true, { ctx with sawUnreadable := true })
      | .ok header =>
        let bound := headerSize + header.sizeofcmds
        match ← imageSpanForLoadedImage (region memory entry.header bound) entry.slide with
        | .error _ => some (true, { ctx with sawUnreadable := true })
        | .ok (start, stop) =>
          if address ≥ start ∧ address < stop then some (false, { ctx with contained := true })
          else some (true, ctx)

/-- What the context says in the end. -/
def ScopeCtx.status (ctx : ScopeCtx) : ScopeStatus :=
  if ctx.contained then .ok
  else if !ctx.sawEntry then .noMatch
  else if !ctx.sawUuidMatch then .uuidMismatch
  else if ctx.sawUnreadable then .unreadableImage
  else .addressOutside

/-- `hk_image_scope_check`; a NULL pointer is `none`. -/
def imageScopeCheck (memory : Ptr → Byte) (catalog : Option (List ImageEntry))
    (selector : Option ImageSelector) (expectUuid : Bool) (expectedUuid : Option (List Byte))
    (address : Ptr) : Option ScopeStatus :=
  match selector with
  | none => some .ok
  | some selector =>
    if expectUuid ∧ expectedUuid.isNone then some .ok
    else
      match catalog with
      | none => some .noCatalog
      | some entries =>
        if entries.length = 0 then some .noCatalog
        else do
          let (_, ctx) ← catalogMatch entries selector
            (scopeVisit memory expectUuid expectedUuid address) ⟨false, false, false, false⟩
          some ctx.status

/-! ## What it should say -/

/-- The members of every explicit set of a selector can be read. -/
inductive Complete : ImageSelector → Prop
  | leaf {selector : ImageSelector} (hkind : selector.kind ≠ .explicitSet) : Complete selector
  | set {selector : ImageSelector} {set : List (Option ImageSelector)}
    (hkind : selector.kind = .explicitSet) (hset : selector.explicitSet = some set)
    (h : ∀ child, some child ∈ set → Complete child) : Complete selector

/-- A selector that is not a set names an image. -/
def Names : LeafId → ImageEntry → Prop
  | .anyLoaded, _ => True
  | .mainExecutable, e => e.isMainExecutable
  | .exactPath path, e => ∃ p, path = some p ∧ e.path = some p
  | .exactUuid uuid, e => e.uuidPresent ∧ e.uuid = uuid
  | .exactHeader header, e => e.header ≠ 0 ∧ e.header = header

/-- A selector names an image; a set names what any of its members names. -/
def Selects (selector : ImageSelector) (e : ImageEntry) : Prop :=
  ∃ l, HasLeaf selector l ∧ Names l e

/-- An image has the UUID that is asked for, if one is. -/
def HasUuid (required : Option (List Byte)) (e : ImageEntry) : Prop :=
  ∀ uuid, required = some uuid → e.uuidPresent ∧ e.uuid = uuid

/-- An image has a header that can be read, and from its segments it reaches from `start` to
`stop`. -/
def Bounds (memory : Ptr → Byte) (e : ImageEntry) (start stop : Nat) : Prop :=
  e.header ≠ 0 ∧ ∃ sizeofcmds,
    readLE 4 (region memory e.header headerSize) 0 = some mhMagic64 ∧
    readLE 4 (region memory e.header headerSize) 20 = some sizeofcmds ∧
    let commands := region memory e.header (headerSize + sizeofcmds)
    (segments commands).whole ∧ ∃ low high, Span {seg | seg ∈ (segments commands).items} low high ∧
      start = (low + e.slide.toNat) % 2 ^ 64 ∧ stop = (high + e.slide.toNat) % 2 ^ 64

/-- An image contains an address. -/
def Contains (memory : Ptr → Byte) (address : Ptr) (e : ImageEntry) : Prop :=
  ∃ start stop, Bounds memory e start stop ∧ start ≤ address ∧ address < stop

/-- An image of the catalog that passes the checks before the span. -/
def Passes (entries : List ImageEntry) (selector : ImageSelector) (required : Option (List Byte))
    (e : ImageEntry) : Prop :=
  e ∈ entries ∧ Selects selector e ∧ HasUuid required e

/-- What the check should say. -/
inductive Verdict (memory : Ptr → Byte) (entries : List ImageEntry) (selector : ImageSelector)
    (required : Option (List Byte)) (address : Ptr) : ScopeStatus → Prop where
  | ok {e : ImageEntry} (passes : Passes entries selector required e)
    (contains : Contains memory address e) : Verdict memory entries selector required address .ok
  | noMatch (none : ∀ e ∈ entries, ¬ Selects selector e) :
    Verdict memory entries selector required address .noMatch
  | uuidMismatch {e : ImageEntry} (mem : e ∈ entries) (selects : Selects selector e)
    (none : ∀ e, ¬ Passes entries selector required e) :
    Verdict memory entries selector required address .uuidMismatch
  | unreadableImage {e : ImageEntry} (passes : Passes entries selector required e)
    (unbounded : ¬ ∃ start stop, Bounds memory e start stop)
    (outside : ∀ e, Passes entries selector required e → ¬ Contains memory address e) :
    Verdict memory entries selector required address .unreadableImage
  | addressOutside {e : ImageEntry} (passes : Passes entries selector required e)
    (bounded : ∀ e, Passes entries selector required e → ∃ start stop, Bounds memory e start stop)
    (outside : ∀ e, Passes entries selector required e → ¬ Contains memory address e) :
    Verdict memory entries selector required address .addressOutside

/-! ## Selectors -/

theorem selects_leaf {selector : ImageSelector} {l : LeafId} (h : leafId selector = some l)
    (e : ImageEntry) : Selects selector e ↔ Names l e := by
  simp only [Selects, hasLeaf_of_leafId h, exists_eq_left]

theorem selects_set {selector : ImageSelector} {set : List (Option ImageSelector)}
    (hkind : selector.kind = .explicitSet) (hset : selector.explicitSet = some set)
    (e : ImageEntry) : Selects selector e ↔ ∃ child, some child ∈ set ∧ Selects child e := by
  constructor
  · rintro ⟨l, hl, hnames⟩
    cases hl with
    | leaf h =>
      rw [leafId_eq_none.mpr hkind] at h
      cases h
    | member _ hset' hmember h =>
      cases hset.symm.trans hset'
      exact ⟨_, hmember, l, h, hnames⟩
  · rintro ⟨child, hmember, l, hl, hnames⟩
    exact ⟨l, .member hkind hset hmember hl, hnames⟩

theorem matchesMembers_spec (e : ImageEntry) {set : List (Option ImageSelector)}
    (h : ∀ child, some child ∈ set →
      ∃ b, entryMatchesSelector e child = some b ∧ (b = true ↔ Selects child e)) :
    ∃ b, matchesMembers e set = some b ∧
      (b = true ↔ ∃ child, some child ∈ set ∧ Selects child e) := by
  induction set with
  | nil => exact ⟨false, rfl, by simp⟩
  | cons sub rest ih =>
    obtain ⟨b, hb, hiff⟩ := ih fun child hchild ↦ h child (List.mem_cons_of_mem _ hchild)
    rw [matchesMembers, hb]
    cases sub with
    | none => exact ⟨b, rfl, by simpa using hiff⟩
    | some sub =>
      obtain ⟨b', hb', hiff'⟩ := h sub List.mem_cons_self
      rw [matchesMember, hb']
      cases b' with
      | true => exact ⟨true, rfl, by simp [hiff'.mp rfl]⟩
      | false =>
        have hnot : ¬ Selects sub e := fun hsub ↦ Bool.false_ne_true (hiff'.mpr hsub)
        exact ⟨b, rfl, by simp [hiff, hnot]⟩

/-- The catalog is searched for what the selector names. -/
theorem entryMatchesSelector_spec {selector : ImageSelector} (h : Complete selector)
    (e : ImageEntry) :
    ∃ b, entryMatchesSelector e selector = some b ∧ (b = true ↔ Selects selector e) := by
  induction h with
  | @leaf selector hkind =>
    obtain ⟨l, hl⟩ := Option.ne_none_iff_exists'.mp (mt leafId_eq_none.mp hkind)
    simp only [selects_leaf hl]
    obtain ⟨kind, path, uuid, header, set⟩ := selector
    cases kind with
    | anyLoaded =>
      cases hl
      exact ⟨_, rfl, by simp [Names]⟩
    | mainExecutable =>
      cases hl
      exact ⟨_, rfl, by simp [Names]⟩
    | exactPath =>
      cases hl
      refine ⟨_, rfl, ?_⟩
      cases hpath : e.path <;> cases path <;> simp [Names, ImageSelector.path, hpath]
    | exactUuid =>
      cases hl
      exact ⟨_, rfl, by simp [Names, ImageSelector.uuid]⟩
    | exactHeader =>
      cases hl
      exact ⟨_, rfl, by simp [Names, ImageSelector.header]⟩
    | explicitSet => exact absurd rfl hkind
  | @set selector set hkind hset _ ih =>
    obtain ⟨b, hb, hiff⟩ := matchesMembers_spec e ih
    simp only [selects_set hkind hset]
    obtain ⟨kind, path, uuid, header, _⟩ := selector
    cases hkind
    cases hset
    exact ⟨b, by rw [entryMatchesSelector, matchesSet, hb], hiff⟩

/-! ## One image -/

variable {memory : Ptr → Byte} {selector : ImageSelector} {required : Option (List Byte)}
  {address : Ptr} {e : ImageEntry}

theorem region_length (memory : Ptr → Byte) (address : Ptr) (size : Nat) :
    (region memory address size).length = size := by
  rw [region, List.length_map, List.length_range]

theorem Bounds.unique {start stop start' stop' : Nat} (h : Bounds memory e start stop)
    (h' : Bounds memory e start' stop') : start = start' ∧ stop = stop' := by
  obtain ⟨-, sizeofcmds, -, hsize, -, low, high, hspan, rfl, rfl⟩ := h
  obtain ⟨-, sizeofcmds', -, hsize', -, low', high', hspan', rfl, rfl⟩ := h'
  cases hsize.symm.trans hsize'
  obtain ⟨rfl, rfl⟩ := hspan.unique hspan'
  exact ⟨rfl, rfl⟩

/-- The UUID is compared as it is asked for. -/
theorem hasUuid_iff : HasUuid required e ↔ ¬ (required.isSome = true ∧
    ((!e.uuidPresent) = true ∨ some e.uuid ≠ required)) := by
  rw [HasUuid]
  cases required with
  | none => simp
  | some uuid => simp

/-- An image whose header cannot be read has no bounds, and the span of one whose header can be read
is its bounds. -/
theorem readBounds_spec (memory : Ptr → Byte) (hheader : e.header ≠ 0) :
    Safe (peekHeader (region memory e.header headerSize)) fun r ↦
      (∀ status, r = .error status → ¬ ∃ start stop, Bounds memory e start stop) ∧
      ∀ header, r = .ok header → Safe (imageSpanForLoadedImage
        (region memory e.header (headerSize + header.sizeofcmds)) e.slide) fun r ↦
          ∀ start stop, r = .ok (start, stop) ↔ Bounds memory e start stop := by
  refine (peekHeader_spec _).mono fun r ⟨hok, herror⟩ ↦ ⟨fun status heq ↦ ?_, fun header heq ↦ ?_⟩
  · rintro ⟨start, stop, -, sizeofcmds, hmagic, -⟩
    exact herror status heq ⟨(region_length _ _ _).ge, hmagic⟩
  · have hstands := hok header heq
    obtain ⟨r, hspan, hr⟩ :=
      imageSpan_spec (region memory e.header (headerSize + header.sizeofcmds)) e.slide
    refine ⟨r, hspan, fun start stop ↦ (hr (start, stop)).trans ⟨?_, ?_⟩⟩
    · rintro ⟨hwhole, low, high, hof, heq⟩
      cases heq
      exact ⟨hheader, _, hstands.magic, hstands.sizeofcmds, hwhole, low, high, hof, rfl, rfl⟩
    · rintro ⟨-, sizeofcmds, -, hsize, hwhole, low, high, hof, rfl, rfl⟩
      cases hstands.sizeofcmds.symm.trans hsize
      exact ⟨hwhole, low, high, hof, rfl⟩

/-! ## The walk over the catalog -/

/-- What the context says about the images that have been looked at, as long as none of them
contains the address. -/
structure Seen (memory : Ptr → Byte) (selector : ImageSelector) (required : Option (List Byte))
    (address : Ptr) (ctx : ScopeCtx) (seen : Set ImageEntry) : Prop where
  entry : ctx.sawEntry = true ↔ ∃ e ∈ seen, Selects selector e
  uuid : ctx.sawUuidMatch = true ↔ ∃ e ∈ seen, Selects selector e ∧ HasUuid required e
  unreadable : ctx.sawUnreadable = true ↔ ∃ e ∈ seen, (Selects selector e ∧ HasUuid required e) ∧
    ¬ ∃ start stop, Bounds memory e start stop
  outside : ∀ e ∈ seen, Selects selector e ∧ HasUuid required e → ¬ Contains memory address e
  running : ctx.contained = false

/-- An image that the selector does not name leaves the context as it is. -/
theorem Seen.skip {ctx : ScopeCtx} {seen : Set ImageEntry}
    (h : Seen memory selector required address ctx seen) (hnot : ¬ Selects selector e) :
    Seen memory selector required address ctx (insert e seen) where
  entry := by rw [Set.exists_mem_insert, h.entry, or_iff_right hnot]
  uuid := by rw [Set.exists_mem_insert, h.uuid, or_iff_right (hnot ·.1)]
  unreadable := by rw [Set.exists_mem_insert, h.unreadable, or_iff_right (hnot ·.1.1)]
  outside := Set.forall_mem_insert.mpr ⟨fun hsel ↦ absurd hsel.1 hnot, h.outside⟩
  running := h.running

/-- One image more, which does not contain the address. -/
theorem Seen.insert {ctx ctx' : ScopeCtx} {seen : Set ImageEntry}
    (h : Seen memory selector required address ctx seen) (hsel : Selects selector e)
    (hout : HasUuid required e → ¬ Contains memory address e) (hentry : ctx'.sawEntry = true)
    (huuid : ctx'.sawUuidMatch = true ↔ ctx.sawUuidMatch = true ∨ HasUuid required e)
    (hunreadable : ctx'.sawUnreadable = true ↔ ctx.sawUnreadable = true ∨
      HasUuid required e ∧ ¬ ∃ start stop, Bounds memory e start stop)
    (hrunning : ctx'.contained = ctx.contained) :
    Seen memory selector required address ctx' (insert e seen) where
  entry := by rw [Set.exists_mem_insert]; exact iff_of_true hentry (.inl hsel)
  uuid := by rw [Set.exists_mem_insert, huuid, h.uuid, and_iff_right hsel, or_comm]
  unreadable := by
    rw [Set.exists_mem_insert, hunreadable, h.unreadable, and_iff_right hsel, or_comm]
  outside := Set.forall_mem_insert.mpr ⟨fun h ↦ hout h.2, h.outside⟩
  running := hrunning.trans h.running

/-- What the visit of an image comes to. -/
theorem scopeVisit_spec {ctx : ScopeCtx} {seen : Set ImageEntry}
    (h : Seen memory selector required address ctx seen) (hsel : Selects selector e) (n : Nat) :
    Safe (scopeVisit memory required.isSome required address ctx n e) fun r ↦
      (r.1 = true ∧ Seen memory selector required address r.2 (insert e seen)) ∨
        (r.1 = false ∧ r.2.contained = true ∧ HasUuid required e ∧ Contains memory address e) := by
  rw [scopeVisit]
  refine .ite (fun hno ↦ .some (.inl ⟨rfl, ?_⟩)) fun hyes ↦ ?_
  · have huuid : ¬ HasUuid required e := fun huuid ↦ hasUuid_iff.mp huuid hno
    exact h.insert hsel (fun h ↦ absurd h huuid) rfl (by simp [huuid]) (by simp [huuid]) rfl
  have huuid := hasUuid_iff.mpr hyes
  -- an image without bounds
  have hunreadable : (¬ ∃ start stop, Bounds memory e start stop) →
      Seen memory selector required address ⟨true, true, true, ctx.contained⟩ (insert e seen) :=
    fun hnot ↦ h.insert hsel (fun _ ⟨start, stop, hbounds, _⟩ ↦ hnot ⟨start, stop, hbounds⟩) rfl
      (by simp [huuid]) (by simp [huuid, hnot]) rfl
  refine .ite (fun hnull ↦ .some (.inl ⟨rfl, hunreadable ?_⟩)) fun hheader ↦ ?_
  · rintro ⟨start, stop, hheader, -⟩
    exact hheader hnull
  refine .bind (readBounds_spec memory hheader) fun r ⟨herror, hok⟩ ↦ ?_
  cases r with
  | error status => exact .some (.inl ⟨rfl, hunreadable (herror status rfl)⟩)
  | ok header =>
    refine .bind (hok header rfl) fun r hbounds ↦ ?_
    cases r with
    | error status =>
      refine .some (.inl ⟨rfl, hunreadable ?_⟩)
      rintro ⟨start, stop, h⟩
      cases (hbounds start stop).mpr h
    | ok range =>
      obtain ⟨start, stop⟩ := range
      have hrange := (hbounds start stop).mp rfl
      refine .ite (fun hin ↦ .some (.inr ⟨rfl, rfl, huuid, start, stop, hrange, hin⟩)) fun hout ↦
        .some (.inl ⟨rfl, h.insert hsel ?_ rfl (by simp [huuid]) ?_ rfl⟩)
      · rintro - ⟨start', stop', hrange', hin⟩
        obtain ⟨rfl, rfl⟩ := hrange.unique hrange'
        exact hout hin
      · simp only [huuid, true_and, show (∃ start stop, Bounds memory e start stop) from
          ⟨start, stop, hrange⟩, not_true, or_false]

theorem catalogMatchFrom_spec (hcomplete : Complete selector) (entries : List ImageEntry)
    (i visited : Nat) {ctx : ScopeCtx} {seen : Set ImageEntry}
    (h : Seen memory selector required address ctx seen) :
    Safe (catalogMatchFrom selector (scopeVisit memory required.isSome required address) i entries
      visited ctx) fun r ↦
        Seen memory selector required address r.2 (seen ∪ {e | e ∈ entries}) ∨
          (r.2.contained = true ∧
            ∃ e, Passes entries selector required e ∧ Contains memory address e) := by
  induction entries generalizing i visited ctx seen with
  | nil => exact .some (.inl (by simpa using h))
  | cons e rest ih =>
    have hset : seen ∪ {x | x ∈ e :: rest} = insert e seen ∪ {x | x ∈ rest} := by
      ext x
      simp only [Set.mem_union, Set.mem_ofPred_eq, List.mem_cons, Set.mem_insert_iff]
      tauto
    have hrest : ∀ i visited ctx, Seen memory selector required address ctx (insert e seen) →
        Safe (catalogMatchFrom selector (scopeVisit memory required.isSome required address) i rest
          visited ctx) fun r ↦
            Seen memory selector required address r.2 (seen ∪ {x | x ∈ e :: rest}) ∨
              (r.2.contained = true ∧
                ∃ x, Passes (e :: rest) selector required x ∧ Contains memory address x) := by
      intro i visited ctx hseen
      refine (ih i visited hseen).mono fun r hr ↦ ?_
      rw [hset]
      exact hr.imp_right fun ⟨hcontained, x, hpasses, hx⟩ ↦
        ⟨hcontained, x, ⟨List.mem_cons_of_mem _ hpasses.1, hpasses.2⟩, hx⟩
    obtain ⟨b, hb, hselects⟩ := entryMatchesSelector_spec hcomplete e
    rw [catalogMatchFrom, hb, Option.bind_eq_bind, Option.bind_some]
    refine .ite (fun htrue ↦ ?_) fun hfalse ↦ hrest _ _ _ (h.skip (mt hselects.mpr hfalse))
    have hsel := hselects.mp htrue
    refine .bind (scopeVisit_spec h hsel i) fun r hr ↦ ?_
    obtain ⟨more, ctx'⟩ := r
    rcases hr with ⟨hmore, hseen⟩ | ⟨hmore, hcontained, huuid, hcontains⟩
    · cases hmore
      exact hrest _ _ _ hseen
    · cases hmore
      exact .some (.inr ⟨hcontained, e, ⟨List.mem_cons_self, hsel, huuid⟩, hcontains⟩)

/-! ## The verdict -/

variable {entries : List ImageEntry}

/-- There is only one verdict. -/
theorem Verdict.unique {status status' : ScopeStatus}
    (h : Verdict memory entries selector required address status)
    (h' : Verdict memory entries selector required address status') : status = status' := by
  cases h <;> cases h' <;> first
    | rfl
    | grind [Passes]

/-- The context of a walk over the whole catalog gives the verdict. -/
theorem Seen.verdict {ctx : ScopeCtx}
    (h : Seen memory selector required address ctx {e | e ∈ entries}) :
    Verdict memory entries selector required address ctx.status := by
  rw [ScopeCtx.status, if_neg (by rw [h.running]; nofun)]
  have houtside : ∀ e, Passes entries selector required e → ¬ Contains memory address e :=
    fun e hpasses ↦ h.outside e hpasses.1 hpasses.2
  cases hentry : ctx.sawEntry with
  | false =>
    refine .noMatch fun e he hsel ↦ ?_
    exact Bool.false_ne_true (hentry.symm.trans (h.entry.mpr ⟨e, he, hsel⟩))
  | true =>
    obtain ⟨e, he, hsel⟩ := h.entry.mp hentry
    cases huuid : ctx.sawUuidMatch with
    | false =>
      refine .uuidMismatch he hsel fun e hpasses ↦ ?_
      exact Bool.false_ne_true (huuid.symm.trans (h.uuid.mpr ⟨e, hpasses⟩))
    | true =>
      obtain ⟨e, hpasses⟩ := h.uuid.mp huuid
      cases hunreadable : ctx.sawUnreadable with
      | true =>
        obtain ⟨e, he, hpasses, hnot⟩ := h.unreadable.mp hunreadable
        exact .unreadableImage ⟨he, hpasses⟩ hnot houtside
      | false =>
        refine .addressOutside hpasses (fun e hpasses ↦ not_not.mp fun hnot ↦ ?_) houtside
        exact Bool.false_ne_true
          (hunreadable.symm.trans (h.unreadable.mpr ⟨e, hpasses.1, hpasses.2, hnot⟩))

theorem imageScopeCheck_spec (hne : entries ≠ []) (hcomplete : Complete selector) :
    Safe (imageScopeCheck memory (some entries) (some selector) required.isSome required address)
      (Verdict memory entries selector required address) := by
  have hstart : Seen memory selector required address ⟨false, false, false, false⟩ ∅ :=
    ⟨by simp, by simp, by simp, by simp, rfl⟩
  obtain ⟨r, heq, hr⟩ := catalogMatchFrom_spec hcomplete entries 0 0 hstart
  have hasked : ¬ (required.isSome = true ∧ required.isNone = true) := by
    cases required <;> simp
  rw [imageScopeCheck]
  dsimp only
  rw [if_neg hasked, if_neg (mt List.eq_nil_of_length_eq_zero hne), catalogMatch, heq,
    Option.bind_eq_bind, Option.bind_some]
  refine .some ?_
  rcases hr with hseen | ⟨hcontained, e, hpasses, hcontains⟩
  · rw [Set.empty_union] at hseen
    exact hseen.verdict
  · rw [ScopeCtx.status, if_pos hcontained]
    exact .ok hpasses hcontains

theorem Verdict.perm {entries' : List ImageEntry} (hperm : entries.Perm entries')
    {status : ScopeStatus} (h : Verdict memory entries selector required address status) :
    Verdict memory entries' selector required address status := by
  have hpasses : ∀ e, Passes entries' selector required e ↔ Passes entries selector required e :=
    fun e ↦ and_congr_left' hperm.mem_iff.symm
  cases h with
  | ok passes contains => exact .ok ((hpasses _).mpr passes) contains
  | noMatch none => exact .noMatch fun e he ↦ none e (hperm.mem_iff.mpr he)
  | uuidMismatch mem selects none =>
    exact .uuidMismatch (hperm.mem_iff.mp mem) selects fun e he ↦ none e ((hpasses e).mp he)
  | unreadableImage passes unbounded outside =>
    exact .unreadableImage ((hpasses _).mpr passes) unbounded fun e he ↦
      outside e ((hpasses e).mp he)
  | addressOutside passes bounded outside =>
    exact .addressOutside ((hpasses _).mpr passes) (fun e he ↦ bounded e ((hpasses e).mp he))
      fun e he ↦ outside e ((hpasses e).mp he)

/-- **The image scope check**, for every catalog that is not empty, selector, UUID and address: it
answers the verdict, and the same for every order of the catalog. -/
theorem imageScopeCheck_verdict (memory : Ptr → Byte) (entries : List ImageEntry)
    (hne : entries ≠ []) (selector : ImageSelector) (hcomplete : Complete selector)
    (required : Option (List Byte)) (address : Ptr) : ∃ status,
      (∀ status', Verdict memory entries selector required address status' ↔ status' = status) ∧
        ∀ entries', entries.Perm entries' → imageScopeCheck memory (some entries') (some selector)
          required.isSome required address = some status := by
  obtain ⟨status, -, hverdict⟩ :=
    @imageScopeCheck_spec memory selector required address entries hne hcomplete
  refine ⟨status, fun status' ↦ ⟨fun h ↦ h.unique hverdict, fun h ↦ h ▸ hverdict⟩,
    fun entries' hperm ↦ ?_⟩
  have hne' : entries' ≠ [] := fun h ↦ hne (List.perm_nil.mp (h ▸ hperm))
  obtain ⟨status', heq, hverdict'⟩ :=
    @imageScopeCheck_spec memory selector required address entries' hne' hcomplete
  rw [heq, hverdict'.unique (hverdict.perm hperm)]

/-- The load commands of an image of two segments, the second of which wraps around. -/
def wrappingImage : List Byte :=
  littleEndian 4 mhMagic64 ++ littleEndian 4 0x0100000c ++ littleEndian 4 0 ++ littleEndian 4 2 ++
    littleEndian 4 2 ++ littleEndian 4 144 ++ littleEndian 8 0 ++
    (littleEndian 4 lcSegment64 ++ littleEndian 4 72 ++ littleEndian 16 0 ++
      littleEndian 8 0x1000 ++ littleEndian 8 0x1000 ++ littleEndian 32 0) ++
    (littleEndian 4 lcSegment64 ++ littleEndian 4 72 ++ littleEndian 16 0 ++
      littleEndian 8 0x800 ++ littleEndian 8 (2 ^ 64 - 1) ++ littleEndian 32 0)

/-- A memory with this image in it. -/
def wrappingMemory (address : Ptr) : Byte := wrappingImage.getD (address - 0x10000) 0

/-- Its entry in the catalog. -/
def wrappingEntry : ImageEntry := ⟨none, false, [], 0x10000, 0, true⟩

theorem wrappingEntry_verdict : ∃ status,
    (∀ status', Verdict wrappingMemory [wrappingEntry] .zero none 0x1800 status' ↔
      status' = status) ∧
    ∀ entries', [wrappingEntry].Perm entries' →
      imageScopeCheck wrappingMemory (some entries') (some .zero) false none 0x1800 = some status :=
  imageScopeCheck_verdict wrappingMemory [wrappingEntry] (List.cons_ne_nil _ _) .zero
    (.leaf (by decide)) none 0x1800

/-- A segment that wraps around does not count: an address behind its start and before the end of
another segment is outside. -/
theorem wrapping_outside :
    imageScopeCheck wrappingMemory (some [wrappingEntry]) (some .zero) false none 0x900 =
        some .addressOutside ∧
      ∃ a b, segments (region wrappingMemory 0x10000 176) = ⟨[a, b], true⟩ ∧
        a.vmsize ≠ 0 ∧ a.segname ≠ pagezeroName ∧ b.vmsize ≠ 0 ∧ b.segname ≠ pagezeroName ∧
        b.vmaddr ≤ 0x900 ∧ 0x900 < a.vmaddr + a.vmsize := by
  refine ⟨by decide +kernel, ⟨[], 0x1000, 0x1000, 0, 0, 0, 0, 0, 0, 32, 72⟩,
    ⟨[], 0x800, 2 ^ 64 - 1, 0, 0, 0, 0, 0, 0, 104, 72⟩, by decide +kernel, ?_⟩
  decide

end HookKit.ImageScope
