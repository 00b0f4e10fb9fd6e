import HookKit.Native.NativeWrite

/-!
# The probes, and what a thread remembers of them

`hk_native_range_readable` and `hk_native_range_executable` walk over the regions of a range, unless
the last walk of the thread has ended in a region that holds the range.

* `rangeAllProtected` — a probe; `Granted` is what it asks.
* `Call`, `step` — the calls that probe, write, and change the page of a trampoline.
* `Memo.Sound` — what is remembered still holds of the memory.
* `probes_exact_iff` — the probes answer rightly as long as no call takes execution from the
  remembered region, or unmaps it.  Of the functions that do such things, only the writers drop the
  memo.
-/

set_option autoImplicit false

namespace HookKit.NativeVm

open PagedMemory

variable {σ : Type} {page : PageSize} (k : Kernel σ page)

/-! ## Probes -/

section Probes

variable (s : σ)

/-- The loop of `hk_range_all_protected`. -/
def allProtectedFrom (start stop : Nat) (required : Prot) (memo : Memo) : Bool × Memo :=
  if start < stop then
    match _h : k.vmRegion s start with
    | none => (false, memo.drop)
    | some region =>
      if region.base > start ∨ region.size = 0 ∨ !region.protection.grants required then
        (false, memo.drop)
      else
        allProtectedFrom (region.base + region.size) stop required
          (if region.base + region.size ≥ stop then
            ⟨region.base, region.base + region.size, region.protection, true⟩
          else memo)
  else (true, memo)
termination_by stop - start
decreasing_by have := (k.region_spec s start region ‹_›).lt_end; omega

/-- The fast path of `hk_range_all_protected` is taken. -/
def Memo.Serves (memo : Memo) (start stop : Nat) (required : Prot) : Prop :=
  memo.valid = true ∧ start ≥ memo.base ∧ stop ≤ memo.stop ∧ memo.protection.grants required = true

instance (memo : Memo) (start stop : Nat) (required : Prot) :
    Decidable (memo.Serves start stop required) :=
  inferInstanceAs (Decidable (_ ∧ _ ∧ _ ∧ _))

/-- `hk_range_all_protected`. -/
def rangeAllProtected (start stop : Nat) (required : Prot) (memo : Memo) : Bool × Memo :=
  if memo.Serves start stop required then (true, memo)
  else allProtectedFrom k s start stop required memo

/-- The two probes. -/
def probe (required : Prot) (t : Thread σ) (addr len : UIntPtr) : Bool × Thread σ :=
  match rangeBounds page addr.toNat len.toNat with
  | none => (false, t)
  | some (start, stop) =>
    let (answer, memo) := rangeAllProtected k t.kernel start stop required t.memo
    (answer, { t with memo := memo })

/-- `hk_native_range_readable`. -/
def nativeRangeReadable (t : Thread σ) (addr len : UIntPtr) : Bool × Thread σ :=
  probe k protRead t addr len

/-- `hk_native_range_executable`. -/
def nativeRangeExecutable (t : Thread σ) (addr len : UIntPtr) : Bool × Thread σ :=
  probe k protExecute t addr len

end Probes

/-! ## The pages of trampolines -/

/-- The loop of `tramp_map_near`. -/
def trampMapFrom (s : σ) (probe limit size : Nat) : Option Nat × σ :=
  if probe ≠ 0 ∧ (probe + size) % 2 ^ 64 > probe ∧ (probe + size) % 2 ^ 64 ≤ limit then
    -- the next region, unless it leaves the hole that is needed
    match _h : (k.vmRegion s probe).filter fun region ↦ region.base < probe + size with
    | some region => trampMapFrom s (region.base + region.size) limit size
    | none =>
      let allocated := k.vmAllocate s (some probe) size
      match allocated.1 with
      | some addr => (some addr, allocated.2)
      | none => trampMapFrom allocated.2 (probe + size) limit size
  else k.vmAllocate s none size
termination_by limit - probe
decreasing_by
  · have := (k.region_spec s probe region (Option.filter_eq_some_iff.mp ‹_›).1).lt_end
    omega
  · have := Nat.mod_le (probe + size) (2 ^ 64)
    omega

/-- `tramp_map_near`. -/
def trampMapNear (s : σ) (anchor : UIntPtr) (size : Nat) : Option Nat × σ :=
  let probe := (anchor.toNat + size - 1) % 2 ^ 64 / size * size
  let limit := (anchor.toNat + 2 ^ 27) % 2 ^ 64
  trampMapFrom k s probe limit size

/-- `hk_native_reloc_alloc`; `none` is 0. -/
def nativeRelocAlloc (s : σ) (size near : UIntPtr) : Option Nat × σ :=
  if size = 0 ∨ size.toNat > page.bytes then (none, s) else trampMapNear k s near page.bytes

/-- `hk_native_reloc_seal`. -/
def nativeRelocSeal (s : σ) (start : UIntPtr) : Bool × σ :=
  if start = 0 then (false, s)
  else k.vmProtect s start.toNat page.bytes false (protRead ||| protExecute)

/-- `hk_native_reloc_unprotect`. -/
def nativeRelocUnprotect (s : σ) (start : UIntPtr) : Bool × σ :=
  if start = 0 then (false, s)
  else k.vmProtect s start.toNat page.bytes true (protRead ||| protWrite)

/-- `hk_native_reloc_free`. -/
def nativeRelocFree (s : σ) (start : UIntPtr) : σ :=
  if start = 0 then s else (k.vmDeallocate s start.toNat page.bytes).2

/-! ## Runs -/

/-- A call of one of these functions. -/
inductive Call where
  | readable (addr len : UIntPtr)
  | executable (addr len : UIntPtr)
  | patchMemory (target data : UIntPtr) (bytes : List Byte)
  | patchPointer (slot value : UIntPtr)
  | allocatePage (size near : UIntPtr)
  | sealPage (start : UIntPtr)
  | unprotectPage (start : UIntPtr)
  | freePage (start : UIntPtr)

/-- What a call does to the thread; `none` is a fault. -/
def step (pac : Pac) (t : Thread σ) : Call → Option (Thread σ)
  | .readable addr len => some (nativeRangeReadable k t addr len).2
  | .executable addr len => some (nativeRangeExecutable k t addr len).2
  | .patchMemory target data bytes => (nativePatchMemory k pac t target data bytes).map (·.2)
  | .patchPointer slot value => (nativePatchPointer k t slot value).map (·.2)
  | .allocatePage size near => some { t with kernel := (nativeRelocAlloc k t.kernel size near).2 }
  | .sealPage start => some { t with kernel := (nativeRelocSeal k t.kernel start).2 }
  | .unprotectPage start => some { t with kernel := (nativeRelocUnprotect k t.kernel start).2 }
  | .freePage start => some { t with kernel := nativeRelocFree k t.kernel start }

/-! ## What a probe asks -/

/-- The page grants some access. -/
def Grants (vm : Vm Prot page.bytes) (required : Prot) (p : Nat) : Prop :=
  ∃ q, vm.prot p = some q ∧ q.grants required = true

/-- The answer of a full walk over the memory map: the range is no empty one and does not wrap, and
all its pages grant the access. -/
def Granted (vm : Vm Prot page.bytes) (required : Prot) (addr len : Nat) : Prop :=
  addr ≠ 0 ∧ 0 < len ∧ ¬ Wraps page addr len ∧
    ∀ p, Touches page.bytes addr len p → Grants vm required p

/-- `vm_region_64` finds a region unless there is none from the address on. -/
def Kernel.FindsRegions : Prop :=
  ∀ s a, k.vmRegion s a = none → (k.view s).prot (a / page.bytes) = none

variable {k} {s : σ} {vm vm' : Vm Prot page.bytes} {memo : Memo}

theorem Grants.of_survives {required : Prot} {p : Nat} (h : Grants vm required p)
    (hsurvives : vm.Survives vm') : Grants vm' required p := by
  obtain ⟨q, hq, hgrants⟩ := h
  exact ⟨q, (hsurvives.prot p (by rw [hq]; exact Option.some_ne_none q)).trans hq, hgrants⟩

/-- What is remembered still holds: an access of the region is granted by all its pages. -/
structure Memo.Sound (vm : Vm Prot page.bytes) (memo : Memo) : Prop where
  base_dvd : page.bytes ∣ memo.base
  stop_dvd : page.bytes ∣ memo.stop
  lt : memo.base < memo.stop
  stop_lt : memo.stop < 2 ^ 64
  /-- One of the two probes has found the region. -/
  useful : memo.protection.grants protRead = true ∨ memo.protection.grants protExecute = true
  granted : ∀ required, required = protRead ∨ required = protExecute →
    memo.protection.grants required = true →
      ∀ p, Touches page.bytes memo.base (memo.stop - memo.base) p → Grants vm required p

/-- The memo is not valid, or it is sound. -/
def Memo.Coherent (vm : Vm Prot page.bytes) (memo : Memo) : Prop :=
  memo.valid = true → memo.Sound vm

theorem Memo.Coherent.drop (vm : Vm Prot page.bytes) (memo : Memo) : memo.drop.Coherent vm := nofun

/-- A memo stays coherent if its pages still grant what it says that they grant. -/
theorem Memo.Coherent.of_pages (h : memo.Coherent vm)
    (hpages : memo.valid = true → ∀ required, required = protRead ∨ required = protExecute →
      memo.protection.grants required = true →
        ∀ p, Touches page.bytes memo.base (memo.stop - memo.base) p →
          Grants vm required p → Grants vm' required p) : memo.Coherent vm' := fun hvalid ↦
  { h hvalid with
    granted := fun required hrequired hgrants p hp ↦
      hpages hvalid required hrequired hgrants p hp
        ((h hvalid).granted required hrequired hgrants p hp) }

theorem Memo.Coherent.of_survives (h : memo.Coherent vm) (hsurvives : vm.Survives vm') :
    memo.Coherent vm' :=
  h.of_pages fun _ _ _ _ _ _ hgrants ↦ hgrants.of_survives hsurvives

/-- A region that a probe has found. -/
theorem sound_of_region {start : Nat} {region : Region} {required : Prot}
    (h : RegionAt vm start region) (hbase : region.base ≤ start)
    (hrequired : required = protRead ∨ required = protExecute)
    (hgrants : region.protection.grants required = true) :
    (Memo.mk region.base (region.base + region.size) region.protection true).Sound vm where
  base_dvd := h.base_dvd
  stop_dvd := Nat.dvd_add h.base_dvd h.size_dvd
  lt := hbase.trans_lt h.lt_end
  stop_lt := h.end_lt
  useful := by
    obtain rfl | rfl := hrequired
    · exact .inl hgrants
    · exact .inr hgrants
  granted _ _ hgranted p hp := by
    rw [Nat.add_sub_cancel_left] at hp
    exact ⟨region.protection, h.uniform p hp, hgranted⟩

/-! ## The walk -/

/-- The page of an address in a range is a page of the range. -/
theorem touches_start {start stop : Nat} (hlt : start < stop) :
    Touches page.bytes start (stop - start) (start / page.bytes) :=
  touches_of_mem le_rfl (by omega)

/-- A walk answers for all pages of its range. -/
theorem allProtectedFrom_iff (hfinds : k.FindsRegions) {start stop : Nat} {required : Prot} :
    ((allProtectedFrom k s start stop required memo).1 = true → start < stop →
      ∀ p, Touches page.bytes start (stop - start) p → Grants (k.view s) required p) ∧
    ((allProtectedFrom k s start stop required memo).1 = false →
      start < stop ∧
        ∃ p, Touches page.bytes start (stop - start) p ∧ ¬ Grants (k.view s) required p) := by
  fun_induction allProtectedFrom k s start stop required memo with
  | case1 start memo hlt hnone =>
    refine ⟨nofun, fun _ ↦ ⟨hlt, _, touches_start hlt, fun ⟨q, hq, _⟩ ↦ ?_⟩⟩
    rw [hfinds s start hnone] at hq
    cases hq
  | case2 start memo hlt region hregion hrefused =>
    have hat := k.region_spec _ _ _ hregion
    have hend := hat.lt_end
    refine ⟨nofun, fun _ ↦ ⟨hlt, _, touches_start hlt, fun ⟨q, hq, hgrants⟩ ↦ ?_⟩⟩
    by_cases hhole : region.base > start
    · rw [hat.hole hhole] at hq
      cases hq
    · rw [hat.uniform _ (touches_of_mem (by omega) hend)] at hq
      cases hq
      simp [hgrants] at hrefused
      omega
  | case3 start memo hlt region hregion hfound ih =>
    have hat := k.region_spec _ _ _ hregion
    have hend := hat.lt_end
    have hgrants : region.protection.grants required = true := by
      by_contra hno
      exact hfound (.inr (.inr (by simpa using hno)))
    obtain ⟨htrue, hfalse⟩ := ih
    refine ⟨fun h _ p hp ↦ ?_, fun h ↦ ?_⟩
    · obtain hin | ⟨hin, hlt'⟩ := touches_region hat (by omega) hp
      · exact ⟨_, hat.uniform p hin, hgrants⟩
      · exact htrue h hlt' p hin
    · obtain ⟨hlt', p, hp, hno⟩ := hfalse h
      exact ⟨hlt, p, ⟨by have := hp.1; omega, hend.trans hp.2⟩, hno⟩
  | case4 start memo hge => exact ⟨fun _ h ↦ absurd h hge, nofun⟩

/-- A walk remembers what it has found. -/
theorem allProtectedFrom_coherent {start stop : Nat} {required : Prot}
    (hrequired : required = protRead ∨ required = protExecute) (h : memo.Coherent (k.view s)) :
    (allProtectedFrom k s start stop required memo).2.Coherent (k.view s) := by
  fun_induction allProtectedFrom k s start stop required memo with
  | case1 start memo hlt hnone => exact .drop _ _
  | case2 start memo hlt region hregion hrefused => exact .drop _ _
  | case3 start memo hlt region hregion hfound ih =>
    refine ih ?_
    split
    · refine fun _ ↦ sound_of_region (k.region_spec _ _ _ hregion) (by omega) hrequired ?_
      by_contra hno
      exact hfound (.inr (.inr (by simpa using hno)))
    · exact h
  | case4 start memo hge => exact h

/-- The memo answers as the walk would. -/
theorem rangeAllProtected_spec (hfinds : k.FindsRegions) {start stop : Nat} {required : Prot}
    (hrequired : required = protRead ∨ required = protExecute) (hlt : start < stop)
    (hcoherent : memo.Coherent (k.view s)) :
    ((rangeAllProtected k s start stop required memo).1 = true ↔
      ∀ p, Touches page.bytes start (stop - start) p → Grants (k.view s) required p) ∧
    (rangeAllProtected k s start stop required memo).2.Coherent (k.view s) := by
  rw [rangeAllProtected]
  split
  · rename_i hserves
    obtain ⟨hvalid, hstart, hstop, hgrants⟩ := hserves
    refine ⟨iff_of_true rfl fun p hp ↦ ?_, hcoherent⟩
    have := hp.1
    exact (hcoherent hvalid).granted required hrequired hgrants p
      ⟨by omega, hstart.trans_lt hp.2⟩
  · obtain ⟨htrue, hfalse⟩ := @allProtectedFrom_iff _ _ k s memo hfinds start stop required
    refine ⟨⟨fun h ↦ htrue h hlt, fun h ↦ ?_⟩, allProtectedFrom_coherent hrequired hcoherent⟩
    by_contra hno
    obtain ⟨-, p, hp, hnot⟩ := hfalse (Bool.eq_false_of_not_eq_true hno)
    exact hnot (h p hp)

/-- A probe answers rightly and keeps the memo coherent. -/
theorem probe_spec (hfinds : k.FindsRegions) {required : Prot}
    (hrequired : required = protRead ∨ required = protExecute) {t : Thread σ}
    (hcoherent : t.memo.Coherent (k.view t.kernel)) (addr len : UIntPtr) :
    ((probe k required t addr len).1 = true ↔
      Granted (k.view t.kernel) required addr.toNat len.toNat) ∧
    (probe k required t addr len).2.kernel = t.kernel ∧
    (probe k required t addr len).2.memo.Coherent (k.view t.kernel) := by
  have hbounds := @rangeBounds_spec page _ _ addr.isLt len.isLt
  rw [probe]
  generalize rangeBounds page addr.toNat len.toNat = range at *
  obtain _ | ⟨start, stop⟩ := range
  · refine ⟨iff_of_false nofun fun h ↦ ?_, rfl, hcoherent⟩
    obtain h' | h' | h' := hbounds
    · exact h.1 h'
    · exact h.2.1.ne' h'
    · exact h.2.2.1 h'
  · obtain ⟨hanswer, hmemo⟩ := rangeAllProtected_spec hfinds hrequired hbounds.lt_stop hcoherent
    refine ⟨hanswer.trans ?_, rfl, hmemo⟩
    simp only [Granted, hbounds.touches]
    exact ⟨fun h ↦ ⟨hbounds.addr_ne, hbounds.len_pos, hbounds.no_wrap, h⟩, fun h ↦ h.2.2.2⟩

/-! ## One call -/

/-- A writer leaves the thread as it is, or drops the memo. -/
theorem nativePatchMemory_memo {pac : Pac} {t t' : Thread σ} {target data : UIntPtr}
    {bytes : List Byte} {mutation : Mutation}
    (h : nativePatchMemory k pac t target data bytes = some (mutation, t')) :
    t' = t ∨ t'.memo.valid = false := by
  rw [nativePatchMemory] at h
  split at h
  · cases h
    exact .inl rfl
  · split at h
    · cases h
      exact .inl rfl
    · rw [hkWrite] at h
      obtain ⟨answer, -, h⟩ := Option.bind_eq_some_iff.mp h
      cases h
      exact .inr rfl

theorem nativePatchPointer_memo {t t' : Thread σ} {slot value : UIntPtr} {mutation : Mutation}
    (h : nativePatchPointer k t slot value = some (mutation, t')) :
    t' = t ∨ t'.memo.valid = false := by
  rw [nativePatchPointer] at h
  split at h
  · cases h
    exact .inl rfl
  · split at h
    · cases h
      exact .inl rfl
    · split at h
      · cases h
        exact .inl rfl
      · dsimp only at h
        split at h
        · obtain ⟨s, -, h⟩ := Option.bind_eq_some_iff.mp h
          cases h
          exact .inr rfl
        · cases h
          exact .inr rfl

/-- A fresh mapping replaces none. -/
theorem vmAllocate_survives (k : Kernel σ page) (s : σ) (fixed : Option Nat) (len : Nat) :
    (k.view s).Survives (k.view (k.vmAllocate s fixed len).2) := by
  have hview := k.allocate_spec s fixed len
  have hplace := k.place_spec s fixed len
  generalize k.vmAllocate s fixed len = allocated at *
  obtain ⟨_ | a, s'⟩ := allocated
  · exact hview ▸ .refl _
  · exact hview ▸ (Vm.map_agreesOff _ _ _ _).survives (hplace a rfl).free

theorem trampMapFrom_survives {probe limit size : Nat} :
    (k.view s).Survives (k.view (trampMapFrom k s probe limit size).2) := by
  fun_induction trampMapFrom k s probe limit size with
  | case1 s probe hcond region hregion ih => exact ih
  | case2 s probe hcond hnone allocated addr haddr => exact vmAllocate_survives k s _ _
  | case3 s probe hcond hnone allocated haddr ih =>
    exact (vmAllocate_survives k s _ _).trans ih
  | case4 s probe hcond => exact vmAllocate_survives k s _ _

theorem nativeRelocAlloc_survives (size near : UIntPtr) :
    (k.view s).Survives (k.view (nativeRelocAlloc k s size near).2) := by
  rw [nativeRelocAlloc]
  split
  · exact .refl _
  · exact trampMapFrom_survives

/-- The memo has an address of the page. -/
def Memo.Shares (page : PageSize) (memo : Memo) (start : Nat) : Prop :=
  start < memo.stop ∧ memo.base < start + page.bytes

/-- The call takes no access from a region that the memo says has it. -/
def Harmless (k : Kernel σ page) (t : Thread σ) : Call → Prop
  | .unprotectPage start =>
    t.memo.valid = true → t.memo.protection.grants protExecute = true →
      (nativeRelocUnprotect k t.kernel start).1 = true → ¬ t.memo.Shares page start.toNat
  | .freePage start =>
    t.memo.valid = true → start ≠ 0 → (k.vmDeallocate t.kernel start.toNat page.bytes).1 = true →
      ¬ t.memo.Shares page start.toNat
  | _ => True

/-- Pages that are no part of a range keep what they grant. -/
theorem Grants.of_agreesOff {required : Prot} {p start len : Nat} (h : Grants vm required p)
    (hoff : vm.AgreesOff start len vm') (hp : ¬ Touches page.bytes start len p) :
    Grants vm' required p := by
  obtain ⟨q, hq, hgrants⟩ := h
  exact ⟨q, (hoff.prot p hp).trans hq, hgrants⟩

/-- A mapped page that gets a protection grants what that protection grants. -/
theorem Grants.protect {required q : Prot} {p start len : Nat} (h : Grants vm required p)
    (hq : q.grants required = true) : Grants (vm.protect start len q) required p := by
  by_cases hp : Touches page.bytes start len p
  · obtain ⟨r, hr, -⟩ := h
    exact ⟨q, by simp [Vm.protect, hp, hr], hq⟩
  · exact h.of_agreesOff (Vm.protect_agreesOff _ _ _ _) hp

/-- A page of the memo's region is no page of a range that has no address of the region. -/
theorem not_touches {p start : Nat} (hsound : memo.Sound vm) (hshares : ¬ memo.Shares page start)
    (hp : Touches page.bytes memo.base (memo.stop - memo.base) p) :
    ¬ Touches page.bytes start page.bytes p := fun htouch ↦
  hshares (lt_of_touches hsound.base_dvd hsound.stop_dvd htouch hp)

/-- Nothing that a probe asks for is lost by a seal. -/
theorem nativeRelocSeal_coherent (h : memo.Coherent (k.view s)) (start : UIntPtr) :
    memo.Coherent (k.view (nativeRelocSeal k s start).2) := by
  rw [nativeRelocSeal]
  split
  · exact h
  · rw [k.protect_spec]
    split
    · refine h.of_pages fun _ required hrequired _ p _ hgrants ↦ hgrants.protect ?_
      obtain rfl | rfl := hrequired <;> decide
    · exact h

/-- A harmless call keeps the memo coherent. -/
theorem step_coherent (hfinds : k.FindsRegions) {pac : Pac} {t t' : Thread σ} {call : Call}
    (h : t.memo.Coherent (k.view t.kernel)) (hharmless : Harmless k t call)
    (hstep : step k pac t call = some t') : t'.memo.Coherent (k.view t'.kernel) := by
  cases call with
  | readable addr len =>
    cases hstep
    obtain ⟨-, hkernel, hmemo⟩ := probe_spec hfinds (.inl rfl) h addr len
    rw [nativeRangeReadable, hkernel]
    exact hmemo
  | executable addr len =>
    cases hstep
    obtain ⟨-, hkernel, hmemo⟩ := probe_spec hfinds (.inr rfl) h addr len
    rw [nativeRangeExecutable, hkernel]
    exact hmemo
  | patchMemory target data bytes =>
    obtain ⟨answer, hanswer, rfl⟩ := Option.map_eq_some_iff.mp hstep
    obtain hsame | hdropped := nativePatchMemory_memo hanswer
    · rwa [hsame]
    · exact fun hvalid ↦ by rw [hdropped] at hvalid; cases hvalid
  | patchPointer slot value =>
    obtain ⟨answer, hanswer, rfl⟩ := Option.map_eq_some_iff.mp hstep
    obtain hsame | hdropped := nativePatchPointer_memo hanswer
    · rwa [hsame]
    · exact fun hvalid ↦ by rw [hdropped] at hvalid; cases hvalid
  | allocatePage size near =>
    cases hstep
    exact h.of_survives (nativeRelocAlloc_survives size near)
  | sealPage start =>
    cases hstep
    exact nativeRelocSeal_coherent h start
  | unprotectPage start =>
    cases hstep
    dsimp only [Harmless] at hharmless ⊢
    rw [nativeRelocUnprotect] at hharmless ⊢
    split
    · exact h
    · rename_i hne
      rw [if_neg hne] at hharmless
      rw [k.protect_spec]
      split
      · rename_i hok
        refine h.of_pages fun hvalid required hrequired hgranted p hp hgrants ↦ ?_
        obtain rfl | rfl := hrequired
        · exact hgrants.protect (by decide)
        · exact hgrants.of_agreesOff (Vm.protect_agreesOff _ _ _ _)
            (not_touches (h hvalid) (hharmless hvalid hgranted hok) hp)
      · exact h
  | freePage start =>
    cases hstep
    dsimp only
    rw [nativeRelocFree]
    split
    · exact h
    · rename_i hne
      rw [k.deallocate_spec]
      split
      · rename_i hok
        exact h.of_pages fun hvalid required _ _ p hp hgrants ↦
          hgrants.of_agreesOff (Vm.unmap_agreesOff _ _ _)
            (not_touches (h hvalid) (hharmless hvalid hne hok) hp)
      · exact h

/-! ## What goes wrong -/

theorem truncPage_eq {p r : Nat} (hr : r < page.bytes) :
    truncPage page (p * page.bytes + r) = p * page.bytes := by
  rw [truncPage, Nat.add_comm, Nat.add_mul_div_right _ _ (Nat.pos_of_neZero _), Nat.div_eq_of_lt hr,
    Nat.zero_add]

/-- The bounds of one byte in a page: the second one, for the first may be at `NULL`. -/
theorem rangeBounds_page {p : Nat} (hp : (p + 1) * page.bytes < 2 ^ 64) :
    rangeBounds page (p * page.bytes + 1) 1 = some (p * page.bytes, (p + 1) * page.bytes) ∧
      p * page.bytes + 1 < 2 ^ 64 := by
  obtain ⟨n, hn⟩ : 2 ∣ page.bytes := dvd_pow_self 2 page.bits_pos.ne'
  have hpos := Nat.pos_of_neZero page.bytes
  have hsucc : (p + 1) * page.bytes = p * page.bytes + page.bytes := Nat.succ_mul _ _
  have heven : (p + 1) * page.bytes = 2 * ((p + 1) * n) := by rw [hn]; ring
  have hstart := @truncPage_eq page p 1 (by omega)
  have hstop := @truncPage_eq page (p + 1) 1 (by omega)
  refine ⟨?_, by omega⟩
  rw [rangeBounds, if_neg (by omega)]
  dsimp only
  rw [Nat.mod_eq_of_lt (by omega), if_neg (by omega), Nat.mod_eq_of_lt (by omega),
    if_neg (by omega), hstart,
    show p * page.bytes + 1 + 1 + (page.bytes - 1) = (p + 1) * page.bytes + 1 by omega, hstop]

/-- All probes answer as a full walk would. -/
def Exact (k : Kernel σ page) (t : Thread σ) : Prop := ∀ addr len,
  ((nativeRangeReadable k t addr len).1 = true ↔
    Granted (k.view t.kernel) protRead addr.toNat len.toNat) ∧
  ((nativeRangeExecutable k t addr len).1 = true ↔
    Granted (k.view t.kernel) protExecute addr.toNat len.toNat)

theorem exact_of_coherent (hfinds : k.FindsRegions) {t : Thread σ}
    (h : t.memo.Coherent (k.view t.kernel)) : Exact k t := fun addr len ↦
  ⟨(probe_spec hfinds (.inl rfl) h addr len).1, (probe_spec hfinds (.inr rfl) h addr len).1⟩

/-- A page that the memo vouches for, and that does not grant the access, is answered wrongly. -/
theorem not_exact {t : Thread σ} {required : Prot} {p : Nat} (hvalid : t.memo.valid = true)
    (hsound : t.memo.Sound vm) (hrequired : required = protRead ∨ required = protExecute)
    (hgrants : t.memo.protection.grants required = true)
    (hp : Touches page.bytes t.memo.base (t.memo.stop - t.memo.base) p)
    (hnot : ¬ Grants (k.view t.kernel) required p) : ¬ Exact k t := by
  have hpos := Nat.pos_of_neZero page.bytes
  obtain ⟨hge, hlt⟩ := (touches_iff_aligned hsound.base_dvd
    (Nat.dvd_sub hsound.stop_dvd hsound.base_dvd)).mp hp
  have hlt' := hsound.lt
  have hbase : t.memo.base ≤ p * page.bytes := by
    have := Nat.mul_le_mul_right page.bytes hge
    rwa [Nat.div_mul_cancel hsound.base_dvd] at this
  have hstop : (p + 1) * page.bytes ≤ t.memo.stop := by
    have := Nat.mul_le_mul_right page.bytes (show p + 1 ≤ _ from hlt)
    rw [Nat.add_mul (t.memo.base / page.bytes), Nat.div_mul_cancel hsound.base_dvd,
      Nat.div_mul_cancel (Nat.dvd_sub hsound.stop_dvd hsound.base_dvd)] at this
    omega
  obtain ⟨hbounds, haddr⟩ := rangeBounds_page (hstop.trans_lt hsound.stop_lt)
  have htoNat : (BitVec.ofNat 64 (p * page.bytes + 1)).toNat = p * page.bytes + 1 := by
    rw [BitVec.toNat_ofNat, Nat.mod_eq_of_lt haddr]
  have hanswer : (probe k required t (BitVec.ofNat 64 (p * page.bytes + 1)) 1).1 = true := by
    rw [probe, htoNat, show (1 : UIntPtr).toNat = 1 from rfl, hbounds]
    dsimp only
    rw [rangeAllProtected, if_pos ⟨hvalid, hbase, hstop, hgrants⟩]
  have hwrong : ¬ Granted (k.view t.kernel) required (p * page.bytes + 1) 1 := fun h ↦ by
    refine hnot (h.2.2.2 p ⟨by omega, ?_⟩)
    have : 1 < page.bytes := Nat.one_lt_two_pow page.bits_pos.ne'
    rw [Nat.succ_mul]
    omega
  intro hexact
  obtain ⟨hread, hexecute⟩ := hexact (BitVec.ofNat 64 (p * page.bytes + 1)) 1
  rw [htoNat] at hread hexecute
  obtain rfl | rfl := hrequired
  · exact hwrong (hread.mp hanswer)
  · exact hwrong (hexecute.mp hanswer)

/-- A page that the memo's region shares with the page of a trampoline. -/
theorem exists_shared {start : Nat} (hsound : memo.Sound vm) (h : memo.Shares page start) :
    ∃ p, Touches page.bytes start page.bytes p ∧
      Touches page.bytes memo.base (memo.stop - memo.base) p := by
  have hlt := hsound.lt
  exact exists_touches (by have := h.1; omega) h.2 (Nat.pos_of_neZero _) (by omega)

/-- After a call that is not harmless some probe answers wrongly. -/
theorem not_exact_of_step {pac : Pac} {t t' : Thread σ} {call : Call}
    (h : t.memo.Coherent (k.view t.kernel)) (hharm : ¬ Harmless k t call)
    (hstep : step k pac t call = some t') : ¬ Exact k t' := by
  cases call with
  | unprotectPage start =>
    cases hstep
    simp only [Harmless, Classical.not_imp, not_not] at hharm
    obtain ⟨hvalid, hgrants, hok, hshares⟩ := hharm
    obtain ⟨p, htouch, hp⟩ := exists_shared (h hvalid) hshares
    refine not_exact (t := ⟨_, t.memo⟩) hvalid (h hvalid) (.inr rfl) hgrants hp ?_
    rw [nativeRelocUnprotect] at hok ⊢
    split at hok
    · cases hok
    · rename_i hne
      rw [if_neg hne, k.protect_spec, if_pos hok]
      rintro ⟨q, hq, hexecute⟩
      obtain ⟨r, hr, -⟩ := (h hvalid).granted _ (.inr rfl) hgrants p hp
      simp only [Vm.protect, htouch, if_true, hr, Option.map_some, Option.some.injEq] at hq
      subst hq
      revert hexecute
      decide
  | freePage start =>
    cases hstep
    simp only [Harmless, Classical.not_imp, not_not] at hharm
    obtain ⟨hvalid, hne, hok, hshares⟩ := hharm
    obtain ⟨p, htouch, hp⟩ := exists_shared (h hvalid) hshares
    have hnot : ∀ required,
        ¬ Grants (k.view (nativeRelocFree k t.kernel start)) required p :=
          fun required ⟨q, hq, _⟩ ↦ by
      rw [nativeRelocFree, if_neg hne, k.deallocate_spec, if_pos hok] at hq
      simp [Vm.unmap, htouch] at hq
    obtain hgrants | hgrants := (h hvalid).useful
    · exact not_exact (t := ⟨_, t.memo⟩) hvalid (h hvalid) (.inl rfl) hgrants hp (hnot _)
    · exact not_exact (t := ⟨_, t.memo⟩) hvalid (h hvalid) (.inr rfl) hgrants hp (hnot _)
  | _ => exact absurd trivial hharm

/-- The threads that can be reached from one that remembers nothing, by harmless calls. -/
inductive Reached (k : Kernel σ page) (pac : Pac) : Thread σ → Prop where
  | start {t : Thread σ} : t.memo.valid = false → Reached k pac t
  | step {t t' : Thread σ} {call : Call} : Reached k pac t → Harmless k t call →
      step k pac t call = some t' → Reached k pac t'

theorem Reached.coherent (hfinds : k.FindsRegions) {pac : Pac} {t : Thread σ}
    (h : Reached k pac t) :
    t.memo.Coherent (k.view t.kernel) := by
  induction h with
  | start hinvalid => exact fun hvalid ↦ by rw [hinvalid] at hvalid; cases hvalid
  | step _ hharmless hstep ih => exact step_coherent hfinds ih hharmless hstep

/-- Along a run of harmless calls every probe answers as a full walk over the memory map would; and
the first call that is not harmless makes some probe answer otherwise. -/
theorem probes_exact_iff (hfinds : k.FindsRegions) {pac : Pac} {t : Thread σ}
    (hreached : Reached k pac t) :
    Exact k t ∧ ∀ call t', step k pac t call = some t' → (Exact k t' ↔ Harmless k t call) := by
  have hcoherent := hreached.coherent hfinds
  refine ⟨exact_of_coherent hfinds hcoherent, fun call t' hstep ↦
    ⟨fun hexact ↦ ?_, fun hharmless ↦ ?_⟩⟩
  · by_contra hharm
    exact not_exact_of_step hcoherent hharm hstep hexact
  · exact exact_of_coherent hfinds (step_coherent hfinds hcoherent hharmless hstep)

theorem paged_findsRegions (page : PageSize) (limit : Nat) (hlimit : limit * page.bytes < 2 ^ 64) :
    (Kernel.paged page limit hlimit).FindsRegions := fun s a hnone ↦ by
  by_contra hmapped
  replace hmapped : s.vm.prot (a / page.bytes) ≠ none := hmapped
  have hlt : a / page.bytes < limit := by
    by_contra hge
    exact hmapped (s.bounded _ (by omega))
  replace hnone : PagedState.regionAt limit s.vm a = none := hnone
  obtain ⟨q, hq⟩ := Option.ne_none_iff_exists'.mp hmapped
  have hfound :
      ((List.range limit).find? fun p ↦ a / page.bytes ≤ p ∧ s.vm.prot p ≠ none).isSome := by
    rw [List.find?_isSome]
    exact ⟨a / page.bytes, List.mem_range.mpr hlt, by simpa using hmapped⟩
  obtain ⟨p, hp⟩ := Option.isSome_iff_exists.mp hfound
  have hprot := List.find?_some hp
  rw [PagedState.regionAt, hp, Option.bind_some, Option.map_eq_none_iff] at hnone
  simp [hnone] at hprot

/-- The code is probed and then patched; the next probe is right. -/
theorem probes_exact_iff_sample :
    let k := Kernel.paged ⟨14, by decide, by decide⟩ 8 (by decide)
    let t := (nativeRangeExecutable k (sampleThread ⟨14, by decide, by decide⟩ []) 0x8000 4).2
    ∃ t', step k .plain t (.patchPointer 0x8000 0) = some t' ∧ Exact k t' := by
  intro k t
  have hreached : Reached k .plain t :=
    .step (.start rfl) (show Harmless k _ (.executable 0x8000 4) from trivial) rfl
  have hsome : (step k .plain t (.patchPointer 0x8000 0)).isSome = true := by decide +kernel
  obtain ⟨t', hstep⟩ := Option.isSome_iff_exists.mp hsome
  exact ⟨t', hstep,
    ((probes_exact_iff (paged_findsRegions _ _ _) hreached).2 _ t' hstep).mpr trivial⟩

/-- The code is probed and then made writable: the next probe still finds it executable. -/
theorem unprotect_stale :
    let k := Kernel.paged ⟨14, by decide, by decide⟩ 8 (by decide)
    let t := sampleThread ⟨14, by decide, by decide⟩ []
    ∃ t₁ t₂, step k .plain t (.executable 0x8000 4) = some t₁ ∧
      step k .plain t₁ (.unprotectPage 0x8000) = some t₂ ∧
      (nativeRangeExecutable k t₂ 0x8000 4).1 = true ∧
      ¬ Granted (k.view t₂.kernel) protExecute 0x8000 4 := by
  intro k t
  refine ⟨_, _, rfl, rfl, by decide +kernel, fun h ↦ ?_⟩
  obtain ⟨q, hq, hgrants⟩ := h.2.2.2 2 (by decide +kernel)
  have hprot : (k.view (nativeRelocUnprotect k (nativeRangeExecutable k t 0x8000 4).2.kernel
      0x8000).2).prot 2 = some (protRead ||| protWrite) := by decide +kernel
  rw [hprot] at hq
  cases hq
  revert hgrants
  decide

end HookKit.NativeVm
