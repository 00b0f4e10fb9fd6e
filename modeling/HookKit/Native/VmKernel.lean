import HookKit.Lib.PagedMemory

/-!
# The memory of the process, as the kernel keeps it

What `hk_native.c` asks of the kernel, and the two functions of that file that every write and every
probe begin with.

* `Kernel` — the calls on the memory map, with what is documented of each of them.  Every call may
  fail, and which ones do is not determined.
* `rangeBounds`, `rangeProtection` — the pages of a range, and the protection they share.
* `rangeBounds_spec`, `rangeProtection_uniform` — a range that wraps has no bounds, and a range with
  a hole in it or with two protections has no protection.
-/

set_option autoImplicit false

namespace HookKit.NativeVm

open PagedMemory

abbrev Byte := BitVec 8

/-! ## Protections -/

/-- `vm_prot_t`. -/
abbrev Prot := BitVec 32

/-- `VM_PROT_READ`, `VM_PROT_WRITE` and `VM_PROT_EXECUTE`. -/
def protRead : Prot := 1
def protWrite : Prot := 2
def protExecute : Prot := 4

/-- `(protection & required) == required`. -/
def Prot.grants (protection required : Prot) : Bool := protection &&& required == required

/-- `getpagesize()`: a power of two. -/
structure PageSize where
  bits : Nat
  bits_pos : 0 < bits
  bits_le : bits ≤ 30

/-- The number of bytes in a page. -/
def PageSize.bytes (page : PageSize) : Nat := 2 ^ page.bits

instance (page : PageSize) : NeZero page.bytes := ⟨(Nat.two_pow_pos _).ne'⟩

theorem PageSize.bytes_le (page : PageSize) : page.bytes ≤ 2 ^ 30 :=
  Nat.pow_le_pow_right (by decide) page.bits_le

/-! ## The kernel -/

/-- What `vm_region_64` reports of a region. -/
structure Region where
  base : Nat
  size : Nat
  protection : Prot

variable {page : PageSize}

/-- The region that the address lies in, or else the first one above it. -/
structure RegionAt (vm : Vm Prot page.bytes) (a : Nat) (region : Region) : Prop where
  lt_end : a < region.base + region.size
  end_lt : region.base + region.size < 2 ^ 64
  base_dvd : page.bytes ∣ region.base
  size_dvd : page.bytes ∣ region.size
  uniform : vm.Uniform region.base region.size region.protection
  hole : a < region.base → vm.prot (a / page.bytes) = none

/-- A place that `vm_allocate` has found; asked for a fixed place, it takes that one. -/
structure PlaceFor (vm : Vm Prot page.bytes) (fixed : Option Nat) (len a : Nat) : Prop where
  ne_zero : a ≠ 0
  dvd : page.bytes ∣ a
  end_lt : a + len < 2 ^ 64
  free : vm.Free a len
  fixed_eq : ∀ x, fixed = some x → a = x / page.bytes * page.bytes

/-- The calls of the kernel, and the stores of the program; `VM_PROT_COPY` is a separate
argument. -/
structure Kernel (σ : Type) (page : PageSize) where
  view : σ → Vm Prot page.bytes
  vmRegion : σ → Nat → Option Region
  vmProtect : σ → Nat → Nat → Bool → Prot → Bool × σ
  vmAllocate : σ → Option Nat → Nat → Option Nat × σ
  vmDeallocate : σ → Nat → Nat → Bool × σ
  /-- With `VM_FLAGS_OVERWRITE | VM_FLAGS_FIXED`: destination, length and source. -/
  vmRemap : σ → Nat → Nat → Nat → Bool × σ
  store : σ → Nat → List Byte → σ
  region_spec : ∀ s a region, vmRegion s a = some region → RegionAt (view s) a region
  protect_spec : ∀ s start len copy q,
    view (vmProtect s start len copy q).2 =
      if (vmProtect s start len copy q).1 then (view s).protect start len q else view s
  place_spec : ∀ s fixed len a, (vmAllocate s fixed len).1 = some a → PlaceFor (view s) fixed len a
  allocate_spec : ∀ s fixed len,
    view (vmAllocate s fixed len).2 =
      match (vmAllocate s fixed len).1 with
      | some a => (view s).map a len (protRead ||| protWrite)
      | none => view s
  deallocate_spec : ∀ s start len,
    view (vmDeallocate s start len).2 =
      if (vmDeallocate s start len).1 then (view s).unmap start len else view s
  /-- Of a remapping that fails nothing is known. -/
  remap_spec : ∀ s dest len src, page.bytes ∣ dest → page.bytes ∣ len → page.bytes ∣ src →
    (vmRemap s dest len src).1 = true →
      view (vmRemap s dest len src).2 = (view s).copy dest len src
  store_spec : ∀ s a bytes, view (store s a bytes) = (view s).store a bytes

namespace Kernel

variable {σ : Type} (k : Kernel σ page)

/-- `vm_deallocate` never fails. -/
def AlwaysDeallocates : Prop := ∀ s start len, (k.vmDeallocate s start len).1 = true

/-- Every byte of a range lies in a page that grants some access. -/
def Accessible (vm : Vm Prot page.bytes) (start len : Nat) (required : Prot) : Prop :=
  ∀ i < len, (vm.prot ((start + i) / page.bytes)).any (·.grants required) = true

instance (vm : Vm Prot page.bytes) (start len : Nat) (required : Prot) :
    Decidable (Accessible vm start len required) :=
  inferInstanceAs (Decidable (∀ i < len, _))

/-- Storing bytes; `none` is a fault. -/
def write (s : σ) (a : Nat) (bytes : List Byte) : Option σ :=
  if Accessible (k.view s) a bytes.length protWrite then some (k.store s a bytes) else none

/-- Loading bytes; `none` is a fault. -/
def load (s : σ) (a len : Nat) : Option (List Byte) :=
  if Accessible (k.view s) a len protRead then (k.view s).read a len else none

end Kernel

/-! ## The pages of a range -/

/-- `x & ~(page - 1)`. -/
def truncPage (page : PageSize) (x : Nat) : Nat := x / page.bytes * page.bytes

/-- `hk_range_bounds`. -/
def rangeBounds (page : PageSize) (addr len : Nat) : Option (Nat × Nat) :=
  if addr = 0 ∨ len = 0 then none
  else
    let last := (addr + len) % 2 ^ 64
    if last < addr then none
    else
      let rounded := (last + (page.bytes - 1)) % 2 ^ 64
      if rounded < last then none else some (truncPage page addr, truncPage page rounded)

/-- The range, rounded up to whole pages, reaches past the end of the address space. -/
def Wraps (page : PageSize) (addr len : Nat) : Prop := 2 ^ 64 ≤ addr + len + (page.bytes - 1)

/-- What `hk_range_bounds` finds: the range of the pages that the range has an address in. -/
structure Bounds (page : PageSize) (addr len start stop : Nat) : Prop where
  addr_ne : addr ≠ 0
  len_pos : 0 < len
  no_wrap : ¬ Wraps page addr len
  start_dvd : page.bytes ∣ start
  stop_dvd : page.bytes ∣ stop
  start_le : start ≤ addr
  le_stop : addr + len ≤ stop
  lt_stop : start < stop
  stop_lt : stop < 2 ^ 64
  touches : ∀ p, Touches page.bytes start (stop - start) p ↔ Touches page.bytes addr len p

theorem truncPage_bounds (page : PageSize) (x : Nat) :
    page.bytes ∣ truncPage page x ∧ truncPage page x ≤ x ∧ x < truncPage page x + page.bytes := by
  refine ⟨Nat.dvd_mul_left _ _, Nat.div_mul_le_self _ _, ?_⟩
  have := Nat.lt_mul_of_div_lt (Nat.lt_succ_self (x / page.bytes)) (Nat.pos_of_neZero page.bytes)
  rwa [Nat.succ_mul] at this

/-- Rounding to whole pages leaves the pages of a range as they are. -/
theorem touches_truncPage {addr len : Nat} (hlen : 0 < len) (p : Nat) :
    let start := truncPage page addr
    let stop := truncPage page (addr + len + (page.bytes - 1))
    start < stop ∧ (Touches page.bytes start (stop - start) p ↔ Touches page.bytes addr len p) := by
  intro start stop
  have hpos := Nat.pos_of_neZero page.bytes
  obtain ⟨⟨m, hm⟩, hle, hlt⟩ := truncPage_bounds page addr
  obtain ⟨⟨n, hn⟩, hle', hlt'⟩ := truncPage_bounds page (addr + len + (page.bytes - 1))
  have hstop : start < stop := by omega
  refine ⟨hstop, ?_⟩
  rw [Touches, Touches, Nat.add_sub_cancel' hstop.le]
  change p * _ < truncPage page _ ∧ truncPage page _ < _ ↔ _
  rw [hm, hn] at *
  -- multiples of the page that an end of the range lies between
  have hleft : p * page.bytes < page.bytes * n ↔ p * page.bytes < addr + len := by
    constructor
    · intro h
      by_contra hge
      have : page.bytes * n < page.bytes * (p + 1) := by
        rw [Nat.mul_succ, Nat.mul_comm _ p]
        omega
      have := Nat.lt_of_mul_lt_mul_left this
      have : page.bytes * n ≤ page.bytes * p := Nat.mul_le_mul_left _ (by omega)
      rw [Nat.mul_comm _ p] at this
      omega
    · omega
  have hright : page.bytes * m < (p + 1) * page.bytes ↔ addr < (p + 1) * page.bytes := by
    constructor
    · intro h
      rw [Nat.mul_comm _ m] at h
      have := Nat.mul_le_mul_right page.bytes (Nat.lt_of_mul_lt_mul_right h)
      rw [Nat.succ_mul, Nat.mul_comm m] at this
      omega
    · omega
  rw [hleft, hright]

/-- A range has bounds unless it is empty, begins at `NULL` or wraps. -/
theorem rangeBounds_spec {addr len : Nat} (haddr : addr < 2 ^ 64) (hlen : len < 2 ^ 64) :
    match rangeBounds page addr len with
    | none => addr = 0 ∨ len = 0 ∨ Wraps page addr len
    | some (start, stop) => Bounds page addr len start stop := by
  have hpage := page.bytes_le
  have hpos := Nat.pos_of_neZero page.bytes
  rw [rangeBounds]
  by_cases hempty : addr = 0 ∨ len = 0
  · rw [if_pos hempty]
    exact hempty.imp_right .inl
  rw [if_neg hempty]
  dsimp only
  by_cases hlast : addr + len < 2 ^ 64
  · rw [Nat.mod_eq_of_lt hlast, if_neg (by omega)]
    by_cases hrounded : addr + len + (page.bytes - 1) < 2 ^ 64
    · rw [Nat.mod_eq_of_lt hrounded, if_neg (by omega)]
      obtain ⟨hstartDvd, hstartLe, _⟩ := truncPage_bounds page addr
      obtain ⟨hstopDvd, hstopLe, _⟩ := truncPage_bounds page (addr + len + (page.bytes - 1))
      have htouches := @touches_truncPage page addr len (by omega)
      exact ⟨by omega, by omega, by rw [Wraps]; omega, hstartDvd, hstopDvd, hstartLe, by omega,
        (htouches 0).1, by omega, fun p ↦ (htouches p).2⟩
    · rw [if_pos (by omega)]
      exact .inr (.inr (by rw [Wraps]; omega))
  · rw [if_pos (by omega)]
    exact .inr (.inr (by rw [Wraps]; omega))

/-! ## The protection of a range -/

section Protection

variable {σ : Type} (k : Kernel σ page) (s : σ)

/-- The loop of `hk_range_protection`; `first` is `none` until the first region has been seen. -/
def protectionFrom (start stop : Nat) (first : Option Prot) : Option Prot :=
  if start < stop then
    match _h : k.vmRegion s start with
    | none => none
    | some region =>
      if region.base > start ∨ region.size = 0 then none
      else
        match first with
        | none => protectionFrom (region.base + region.size) stop (some region.protection)
        | some q =>
          if region.protection ≠ q then none
          else protectionFrom (region.base + region.size) stop (some q)
  else first
termination_by stop - start
decreasing_by all_goals have := (k.region_spec s start region ‹_›).lt_end; omega

/-- `hk_range_protection`. -/
def rangeProtection (start stop : Nat) : Option Prot := protectionFrom k s start stop none

variable {k s}

/-- The pages of a range are those of a region at its start and those of what is left. -/
theorem touches_region {vm : Vm Prot page.bytes} {start stop p : Nat} {region : Region}
    (h : RegionAt vm start region) (hbase : region.base ≤ start)
    (hp : Touches page.bytes start (stop - start) p) :
    Touches page.bytes region.base region.size p ∨
      Touches page.bytes (region.base + region.size) (stop - (region.base + region.size)) p ∧
        region.base + region.size < stop := by
  have hlt := h.lt_end
  rw [Touches] at hp
  simp only [Touches]
  by_cases hin : p * page.bytes < region.base + region.size
  · exact .inl ⟨hin, by omega⟩
  · have : (p + 1) * page.bytes = p * page.bytes + page.bytes := Nat.succ_mul _ _
    have := Nat.pos_of_neZero page.bytes
    exact .inr ⟨⟨by omega, by omega⟩, by omega⟩

/-- What was seen before is kept, and the rest of the range has the protection found. -/
theorem protectionFrom_spec {start stop : Nat} {first : Option Prot} {q : Prot}
    (h : protectionFrom k s start stop first = some q) :
    (∀ r, first = some r → r = q) ∧ (start < stop → (k.view s).Uniform start (stop - start) q) := by
  fun_induction protectionFrom k s start stop first with
  | case1 => cases h
  | case2 => cases h
  | case3 start hlt region hregion hhole ih =>
    have hat := k.region_spec _ _ _ hregion
    obtain ⟨hq, hrest⟩ := ih h
    refine ⟨fun r hr ↦ (by cases hr), fun _ p hp ↦ ?_⟩
    obtain hin | ⟨hin, hlt'⟩ := touches_region hat (by omega) hp
    · exact (hat.uniform p hin).trans (congrArg some (hq _ rfl))
    · exact hrest hlt' p hin
  | case4 => cases h
  | case5 start hlt region hregion hhole r hr ih =>
    have hat := k.region_spec _ _ _ hregion
    obtain ⟨hq, hrest⟩ := ih h
    refine ⟨fun r' hr' ↦ (by cases hr'; exact hq _ rfl), fun _ p hp ↦ ?_⟩
    obtain hin | ⟨hin, hlt'⟩ := touches_region hat (by omega) hp
    · rw [hat.uniform p hin, not_not.mp hr, hq _ rfl]
    · exact hrest hlt' p hin
  | case6 start first hlt =>
    exact ⟨fun r hr ↦ by rw [h] at hr; cases hr; rfl, fun h' ↦ absurd h' hlt⟩

/-- A range with a hole or with two protections has no protection. -/
theorem rangeProtection_uniform {start stop : Nat} {q : Prot}
    (h : rangeProtection k s start stop = some q) (hlt : start < stop) :
    (k.view s).Uniform start (stop - start) q :=
  (protectionFrom_spec h).2 hlt

end Protection

/-! ## A kernel with regions of one page -/

/-- A memory below some page, and which of the next calls fail. -/
structure PagedState (page : PageSize) (limit : Nat) where
  vm : Vm Prot page.bytes
  bounded : ∀ p, limit ≤ p → vm.prot p = none
  failing : List Bool

namespace PagedState

variable {limit : Nat}

/-- One call: it fails if it is its turn to, and changes the memory if it does not. -/
def call (s : PagedState page limit) (vm : Vm Prot page.bytes)
    (h : ∀ p, limit ≤ p → vm.prot p = none) : Bool × PagedState page limit :=
  if s.failing.headD false then (false, { s with failing := s.failing.tail })
  else (true, ⟨vm, h, s.failing.tail⟩)

theorem call_vm (s : PagedState page limit) (vm : Vm Prot page.bytes)
    (h : ∀ p, limit ≤ p → vm.prot p = none) :
    (s.call vm h).2.vm = if (s.call vm h).1 then vm else s.vm := by
  rw [call]
  split <;> rfl

/-- The pages that `len` bytes take. -/
def pageCount (page : PageSize) (len : Nat) : Nat := (len + (page.bytes - 1)) / page.bytes

/-- Pages `p` and up are free, as many as `len` bytes take. -/
def Fits (limit : Nat) (vm : Vm Prot page.bytes) (fixed : Option Nat) (len p : Nat) : Prop :=
  p ≠ 0 ∧ p + pageCount page len ≤ limit ∧ (∀ i < pageCount page len, vm.prot (p + i) = none) ∧
    fixed.all fun x ↦ x / page.bytes = p

instance (limit : Nat) (vm : Vm Prot page.bytes) (fixed : Option Nat) (len p : Nat) :
    Decidable (Fits limit vm fixed len p) :=
  inferInstanceAs (Decidable (_ ∧ _ ∧ _ ∧ _))

/-- The first page from that of `a` on that is mapped. -/
def regionAt (limit : Nat) (vm : Vm Prot page.bytes) (a : Nat) : Option Region :=
  ((List.range limit).find? fun p ↦ a / page.bytes ≤ p ∧ vm.prot p ≠ none).bind fun p ↦
    (vm.prot p).map fun q ↦ ⟨p * page.bytes, page.bytes, q⟩

/-- The first place that fits. -/
def place (s : PagedState page limit) (fixed : Option Nat) (len : Nat) : Option Nat :=
  if s.failing.headD false then none
  else ((List.range limit).find? fun p ↦ Fits limit s.vm fixed len p).map (· * page.bytes)

/-- A page is a region, and the page of an address is the first one that is looked at. -/
theorem regionAt_spec (hlimit : limit * page.bytes < 2 ^ 64)
    {vm : Vm Prot page.bytes} {a : Nat} {region : Region} (h : regionAt limit vm a = some region) :
    RegionAt vm a region := by
  have hpos := Nat.pos_of_neZero page.bytes
  obtain ⟨p, hfind, hregion⟩ := Option.bind_eq_some_iff.mp h
  obtain ⟨q, hq, rfl⟩ := Option.map_eq_some_iff.mp hregion
  obtain ⟨hp, hmem, hfirst⟩ := List.find?_range_eq_some.mp hfind
  have hp : a / page.bytes ≤ p := (of_decide_eq_true hp).1
  have hbelow : (p + 1) * page.bytes ≤ limit * page.bytes :=
    Nat.mul_le_mul_right _ (List.mem_range.mp hmem)
  rw [Nat.succ_mul] at hbelow
  refine ⟨?_, hbelow.trans_lt hlimit, Nat.dvd_mul_left _ _, Nat.dvd_refl _, fun p' hp' ↦ ?_,
    fun hlt ↦ ?_⟩
  · have := Nat.lt_mul_of_div_lt (Nat.lt_succ_of_le hp) hpos
    rwa [Nat.succ_mul] at this
  · have := (touches_iff_aligned (Nat.dvd_mul_left _ _) (Nat.dvd_refl _)).mp hp'
    rw [Nat.mul_div_cancel _ hpos, Nat.div_self hpos] at this
    rwa [show p' = p by omega]
  · have := hfirst _ (Nat.div_lt_of_lt_mul (by rwa [Nat.mul_comm]))
    simpa [Nat.lt_irrefl] using this

theorem place_spec (hlimit : limit * page.bytes < 2 ^ 64) {s : PagedState page limit}
    {fixed : Option Nat} {len a : Nat} (h : s.place fixed len = some a) :
    PlaceFor s.vm fixed len a ∧
      ∀ p, Touches page.bytes a len p → p < limit := by
  have hpos := Nat.pos_of_neZero page.bytes
  rw [place] at h
  split at h
  · cases h
  obtain ⟨p, hfind, rfl⟩ := Option.map_eq_some_iff.mp h
  obtain ⟨hfits, -, -⟩ := List.find?_range_eq_some.mp hfind
  obtain ⟨hne, hbelow, hfree, hfixed⟩ := of_decide_eq_true hfits
  have hlen : len ≤ pageCount page len * page.bytes := by
    have := Nat.lt_mul_of_div_lt (Nat.lt_succ_self (pageCount page len)) hpos
    rw [Nat.succ_mul] at this
    omega
  have hend : (p + pageCount page len) * page.bytes < 2 ^ 64 :=
    (Nat.mul_le_mul_right _ hbelow).trans_lt hlimit
  rw [Nat.add_mul] at hend
  have hpages : ∀ p', Touches page.bytes (p * page.bytes) len p' →
      p ≤ p' ∧ p' < p + pageCount page len := fun p' hp' ↦ by
    have hlt : p' * page.bytes < (p + pageCount page len) * page.bytes := by
      rw [Nat.add_mul]
      exact hp'.1.trans_le (by omega)
    exact ⟨Nat.le_of_lt_succ (Nat.lt_of_mul_lt_mul_right hp'.2), Nat.lt_of_mul_lt_mul_right hlt⟩
  refine ⟨⟨(Nat.mul_pos (Nat.pos_of_ne_zero hne) hpos).ne', Nat.dvd_mul_left _ _, by omega,
    fun p' hp' ↦ ?_, fun x hx ↦ ?_⟩, fun p' hp' ↦ (hpages p' hp').2.trans_le hbelow⟩
  · obtain ⟨hge, hlt⟩ := hpages p' hp'
    rw [show p' = p + (p' - p) by omega]
    exact hfree _ (by omega)
  · subst hx
    rw [of_decide_eq_true hfixed]

theorem copy_bounded (s : PagedState page limit) {dest len src : Nat}
    (h : dest + len ≤ limit * page.bytes) (p : Nat) (hp : limit ≤ p) :
    (s.vm.copy dest len src).prot p = none := by
  have hoff : ¬ Touches page.bytes dest len p := fun htouch ↦ by
    have := Nat.lt_of_mul_lt_mul_right (htouch.1.trans_le h)
    omega
  exact (if_neg hoff).trans (s.bounded p hp)

/-- Mapping pages over those of a range below the limit. -/
def remap (s : PagedState page limit) (dest len src : Nat) : Bool × PagedState page limit :=
  if h : dest + len ≤ limit * page.bytes then s.call (s.vm.copy dest len src) (s.copy_bounded h)
  else (false, s)

theorem remap_vm {s : PagedState page limit} {dest len src : Nat}
    (h : (s.remap dest len src).1 = true) : (s.remap dest len src).2.vm =
    s.vm.copy dest len src := by
  rw [remap] at h ⊢
  split at h
  · rw [dif_pos ‹_›, call_vm, if_pos h]
  · cases h

end PagedState

/-- A kernel that has memory below `limit` pages only. -/
def Kernel.paged (page : PageSize) (limit : Nat) (hlimit : limit * page.bytes < 2 ^ 64) :
    Kernel (PagedState page limit) page where
  view := PagedState.vm
  vmRegion s := PagedState.regionAt limit s.vm
  vmProtect s start len _ q := s.call (s.vm.protect start len q) fun p hp ↦ by
    simp [Vm.protect, s.bounded p hp]
  vmAllocate s fixed len :=
    match h : s.place fixed len with
    | some a => (some a, ⟨s.vm.map a len (protRead ||| protWrite), fun p hp ↦ by
        have := (PagedState.place_spec hlimit h).2 p
        exact (if_neg fun htouch ↦ (this htouch).not_ge hp).trans (s.bounded p hp), s.failing.tail⟩)
    | none => (none, { s with failing := s.failing.tail })
  vmDeallocate s start len := s.call (s.vm.unmap start len) fun p hp ↦ by
    simp [Vm.unmap, s.bounded p hp]
  vmRemap s dest len src := s.remap dest len src
  store s a bytes := { s with vm := s.vm.store a bytes }
  region_spec _ _ _ h := PagedState.regionAt_spec hlimit h
  protect_spec _ _ _ _ _ := PagedState.call_vm _ _ _
  place_spec s fixed len a h := by
    refine (PagedState.place_spec hlimit (?_ : s.place fixed len = some a)).1
    split at h <;> simp_all
  allocate_spec s fixed len := by
    split <;> rfl
  deallocate_spec _ _ _ := PagedState.call_vm _ _ _
  remap_spec _ _ _ _ _ _ _ h := PagedState.remap_vm h
  store_spec _ _ _ := rfl

end HookKit.NativeVm
