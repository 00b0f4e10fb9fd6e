import HookKit.Core.Base
import HookKit.Core.PointerAuth
import HookKit.Lib.LittleEndian
import HookKit.Native.VmKernel

/-!
# The native writers

`hk_native_patch_memory` and `hk_native_patch_pointer`.  Both make the pages of the target writable
for the time of the store; the first one, where the kernel refuses that, patches a copy of the pages
and maps it over them.

* `writeLocked`, `nativePatchMemory`, `nativePatchPointer` — the writers; `none` is a fault.
* `Honest` — what an answer promises, whichever calls have failed.
* `nativePatchMemory_honest`, `nativePatchPointer_honest` — the promises are kept.
-/

set_option autoImplicit false

namespace HookKit.NativeVm

open PagedMemory

/-! ## The writers -/

/-- `hk_memo_region`. -/
structure Memo where
  base : Nat
  stop : Nat
  protection : Prot
  valid : Bool
deriving DecidableEq

/-- The memory, and what this thread remembers of it. -/
structure Thread (σ : Type) where
  kernel : σ
  memo : Memo

/-- `hk_memo_region.valid = false`. -/
def Memo.drop (memo : Memo) : Memo := { memo with valid := false }

variable {σ : Type} {page : PageSize} (k : Kernel σ page)

/-- The second half of `hk_write_locked`, where the pages cannot be made writable. -/
def writeRemapped (s : σ) (dst : Nat) (src : List Byte) (start len : Nat) (restore : Prot) :
    Option (Mutation × σ) :=
  let allocated := k.vmAllocate s none len
  match allocated.1 with
  | none => some (.none, allocated.2)
  | some tmp => do
    let old ← k.load allocated.2 start len
    let s ← k.write allocated.2 tmp old
    let s ← k.write s (tmp + (dst - start)) src
    let sealed := k.vmProtect s tmp len false restore
    if !sealed.1 then
      some (.none, (k.vmDeallocate sealed.2 tmp len).2)
    else
      let remapped := k.vmRemap sealed.2 start len tmp
      let s := (k.vmDeallocate remapped.2 tmp len).2
      some (if remapped.1 then .complete else .unknown, s)

/-- `hk_write_locked`. -/
def writeLocked (s : σ) (dst : Nat) (src : List Byte) : Option (Mutation × σ) :=
  match rangeBounds page dst src.length with
  | none => some (.none, s)
  | some (start, stop) =>
    let len := stop - start
    match rangeProtection k s start stop with
    | none => some (.none, s)
    | some restore =>
      let opened := k.vmProtect s start len true (protRead ||| protWrite)
      if opened.1 then do
        let s ← k.write opened.2 dst src
        let restored := k.vmProtect s start len false restore
        some (if !restored.1 then .unknown else .complete, restored.2)
      else writeRemapped k opened.2 dst src start len restore

/-- `hk_write`. -/
def hkWrite (t : Thread σ) (dst : Nat) (src : List Byte) : Option (Mutation × Thread σ) := do
  let (mutation, s) ← writeLocked k t.kernel dst src
  some (mutation, ⟨s, t.memo.drop⟩)

/-- `hk_native_patch_memory`; `data` is where the bytes come from. -/
def nativePatchMemory (pac : Pac) (t : Thread σ) (target data : UIntPtr) (bytes : List Byte) :
    Option (Mutation × Thread σ) :=
  if target = 0 ∨ data = 0 ∨ bytes.length = 0 then some (.none, t)
  else if target = data then some (.none, t)
  else hkWrite k t (pac.stripCode target).toNat bytes

/-- `hk_native_patch_pointer`. -/
def nativePatchPointer (t : Thread σ) (slot value : UIntPtr) : Option (Mutation × Thread σ) :=
  if slot = 0 ∨ slot &&& 7 ≠ 0 then some (.none, t)
  else
    match rangeBounds page slot.toNat 8 with
    | none => some (.none, t)
    | some (start, stop) =>
      match rangeProtection k t.kernel start stop with
      | none => some (.none, t)
      | some restore =>
        let len := stop - start
        let opened := k.vmProtect t.kernel start len true (protRead ||| protWrite)
        if opened.1 then do
          let s ← k.write opened.2 slot.toNat (LittleEndian.littleEndian 8 value.toNat)
          let restored := k.vmProtect s start len false restore
          some (if restored.1 then .complete else .unknown, ⟨restored.2, t.memo.drop⟩)
        else some (.none, ⟨opened.2, t.memo.drop⟩)

/-! ## Honest answers -/

/-- All that was mapped is as it was; and nothing else is mapped, if unmapping never fails. -/
structure Kept (vm vm' : Vm Prot page.bytes) : Prop where
  survives : vm.Survives vm'
  eq : k.AlwaysDeallocates → vm' = vm

/-- What an answer to writing `src` at `dst` promises. -/
structure Honest (s : σ) (dst : Nat) (src : List Byte) (answer : Option (Mutation × σ)) : Prop where
  /-- The writer faults only where the target cannot be read. -/
  fault : answer = none → ∃ q, (k.view s).Uniform dst src.length q ∧ q.grants protRead = false
  /-- Where the range wraps, has a hole or has two protections, nothing has been called. -/
  refused : (Wraps page dst src.length ∨ ∀ q, ¬ (k.view s).Uniform dst src.length q) →
    answer = some (.none, s)
  kept : ∀ s', answer = some (.none, s') → Kept k (k.view s) (k.view s')
  patched : ∀ s', answer = some (.complete, s') →
    (∃ q, (k.view s).Uniform dst src.length q) ∧ Kept k ((k.view s).store dst src) (k.view s')
  /-- There is a reason for an unknown outcome. -/
  unsettled : ∀ s', answer = some (.unknown, s') →
    k.view s' = ((k.view s).protect dst src.length (protRead ||| protWrite)).store dst src ∨
      ∃ s₁ dest len tmp, (k.vmRemap s₁ dest len tmp).1 = false
  ne_partly : ∀ s', answer ≠ some (.partly, s')

variable {k}

theorem Kept.refl (vm : Vm Prot page.bytes) : Kept k vm vm := ⟨.refl vm, fun _ ↦ rfl⟩

/-- A detour over fresh pages that ends with an attempt to unmap them. -/
theorem kept_deallocate {vm : Vm Prot page.bytes} {s : σ} {tmp len : Nat}
    (hoff : vm.AgreesOff tmp len (k.view s)) (hfree : vm.Free tmp len) :
    Kept k vm (k.view (k.vmDeallocate s tmp len).2) := by
  rw [k.deallocate_spec]
  split
  · rw [hoff.unmap hfree]
    exact .refl vm
  · rename_i hfails
    exact ⟨hoff.survives hfree, fun halways ↦ absurd (halways _ _ _) hfails⟩

/-- The range does not wrap, and its pages have one protection. -/
def Uniformly (vm : Vm Prot page.bytes) (dst len : Nat) (q : Prot) : Prop :=
  ¬ Wraps page dst len ∧ vm.Uniform dst len q

namespace Honest

variable {s s' : σ} {dst : Nat} {src : List Byte} {q : Prot}

theorem of_refused : Honest k s dst src (some (.none, s)) where
  fault h := by cases h
  refused _ := rfl
  kept s' h := by cases h; exact .refl _
  patched s' h := by cases h
  unsettled s' h := by cases h
  ne_partly s' h := by cases h

theorem of_fault (h : Uniformly (k.view s) dst src.length q) (hread : q.grants protRead = false) :
    Honest k s dst src none where
  fault _ := ⟨q, h.2, hread⟩
  refused hbad := (hbad.elim h.1 fun hnone ↦ hnone q h.2).elim
  kept s' h := by cases h
  patched s' h := by cases h
  unsettled s' h := by cases h
  ne_partly s' h := by cases h

theorem of_none (h : Uniformly (k.view s) dst src.length q)
    (hkept : Kept k (k.view s) (k.view s')) :
    Honest k s dst src (some (.none, s')) where
  fault h := by cases h
  refused hbad := (hbad.elim h.1 fun hnone ↦ hnone q h.2).elim
  kept s' h := by cases h; exact hkept
  patched s' h := by cases h
  unsettled s' h := by cases h
  ne_partly s' h := by cases h

theorem of_complete (h : Uniformly (k.view s) dst src.length q)
    (hkept : Kept k ((k.view s).store dst src) (k.view s')) :
    Honest k s dst src (some (.complete, s')) where
  fault h := by cases h
  refused hbad := (hbad.elim h.1 fun hnone ↦ hnone q h.2).elim
  kept s' h := by cases h
  patched s' h' := by cases h'; exact ⟨⟨q, h.2⟩, hkept⟩
  unsettled s' h := by cases h
  ne_partly s' h := by cases h

theorem of_unknown (h : Uniformly (k.view s) dst src.length q)
    (hreason :
      k.view s' = ((k.view s).protect dst src.length (protRead ||| protWrite)).store dst src ∨
        ∃ s₁ dest len tmp, (k.vmRemap s₁ dest len tmp).1 = false) :
    Honest k s dst src (some (.unknown, s')) where
  fault h := by cases h
  refused hbad := (hbad.elim h.1 fun hnone ↦ hnone q h.2).elim
  kept s' h := by cases h
  patched s' h := by cases h
  unsettled s' h := by cases h; exact hreason
  ne_partly s' h := by cases h

end Honest

/-! ## One path at a time -/

theorem accessible_of_uniform {vm : Vm Prot page.bytes} {start len a n : Nat} {q required : Prot}
    (h : vm.Uniform start len q) (hgrants : q.grants required = true) (hstart : start ≤ a)
    (hend : a + n ≤ start + len) : Kernel.Accessible vm a n required := fun i hi ↦ by
  rw [h _ (touches_of_mem (by omega) (by omega))]
  exact hgrants

theorem write_eq {s : σ} {start len a : Nat} {bytes : List Byte} {q : Prot}
    (h : (k.view s).Uniform start len q) (hgrants : q.grants protWrite = true) (hstart : start ≤ a)
    (hend : a + bytes.length ≤ start + len) : k.write s a bytes = some (k.store s a bytes) :=
  if_pos (accessible_of_uniform h hgrants hstart hend)

section Paths

variable {s : σ} {dst start stop : Nat} {src : List Byte} {restore : Prot}

/-- A store between two changes of the protection. -/
theorem direct_honest (hbounds : Bounds page dst src.length start stop)
    (huniform : (k.view s).Uniform start (stop - start) restore) {opened : Bool × σ}
    (hopened : k.vmProtect s start (stop - start) true (protRead ||| protWrite) = opened)
    (hok : opened.1 = true) :
    ∃ s₁, k.write opened.2 dst src = some s₁ ∧
      let restored := k.vmProtect s₁ start (stop - start) false restore
      Honest k s dst src (some (if restored.1 then .complete else .unknown, restored.2)) := by
  have hle := hbounds.start_le
  have hlt := hbounds.le_stop
  have hview : k.view opened.2 =
      (k.view s).protect start (stop - start) (protRead ||| protWrite) := by
    rw [← hopened, k.protect_spec, hopened, if_pos hok]
  have hwritable : (k.view opened.2).Uniform start (stop - start) (protRead ||| protWrite) := by
    rw [hview]
    exact huniform.protect _
  have huniformly : Uniformly (k.view s) dst src.length restore :=
    ⟨hbounds.no_wrap, huniform.congr hbounds.touches⟩
  refine ⟨_, write_eq hwritable (by decide) hle (by omega), ?_⟩
  intro restored
  have hrestored : k.view restored.2 = if restored.1 then (k.view s).store dst src
      else ((k.view s).protect dst src.length (protRead ||| protWrite)).store dst src := by
    rw [k.protect_spec, k.store_spec, hview, Vm.protect_store_protect src huniform,
      Vm.protect_congr _ _ hbounds.touches]
  by_cases hrestore : restored.1 = true
  · rw [if_pos hrestore] at hrestored ⊢
    exact .of_complete huniformly (hrestored ▸ .refl _)
  · rw [if_neg hrestore] at hrestored ⊢
    exact .of_unknown huniformly (.inl hrestored)

/-- A mapped page that cannot be loaded does not grant it. -/
theorem load_eq_none {start len : Nat} (huniform : (k.view s).Uniform start len restore)
    (h : k.load s start len = none) : restore.grants protRead = false := by
  by_contra hgrants
  rw [Bool.not_eq_false] at hgrants
  rw [Kernel.load, if_pos (accessible_of_uniform huniform hgrants le_rfl le_rfl)] at h
  obtain ⟨bytes, hbytes⟩ := @Vm.read_isSome _ _ (k.view s) start len fun i hi ↦ by
    rw [huniform _ (touches_of_mem (by omega) (by omega))]
    exact Option.some_ne_none restore
  rw [hbytes] at h
  cases h

/-- The bytes that a load gives, as they were before a detour over free pages. -/
theorem load_spec {vm : Vm Prot page.bytes} {start len : Nat} {bytes : List Byte}
    (huniform : vm.Uniform start len restore) (hsurvives : vm.Survives (k.view s))
    (h : k.load s start len = some bytes) :
    bytes.length = len ∧ ∀ i < len, vm.byte (start + i) = some (bytes.getD i 0) := by
  rw [Kernel.load] at h
  split at h
  · obtain ⟨hlength, hbytes⟩ := Vm.read_spec h
    exact ⟨hlength, fun i hi ↦
      (hsurvives.byte _ (huniform.byte_ne_none hi)).symm.trans (hbytes i hi)⟩
  · cases h

/-- The end of the second path: a patched copy is sealed and mapped over the original. -/
theorem sealed_honest {s' : σ} {len tmp : Nat} (hstart : page.bytes ∣ start)
    (hlen : page.bytes ∣ len) (htmp : page.bytes ∣ tmp)
    (huniformly : Uniformly (k.view s) dst src.length restore)
    (huniform : (k.view s).Uniform start len restore) (hfree : (k.view s).Free tmp len)
    (hinside : start ≤ dst ∧ dst + src.length ≤ start + len)
    (hoff : (k.view s).AgreesOff tmp len (k.view s'))
    (hwritable : (k.view s').Uniform tmp len (protRead ||| protWrite))
    (hbytes : ∀ i < len, (k.view s').byte (tmp + i) = ((k.view s).store dst src).byte (start + i)) :
    let sealed := k.vmProtect s' tmp len false restore
    Honest k s dst src
      (if !sealed.1 then some (.none, (k.vmDeallocate sealed.2 tmp len).2)
      else
        let remapped := k.vmRemap sealed.2 start len tmp
        some (if remapped.1 then .complete else .unknown,
          (k.vmDeallocate remapped.2 tmp len).2)) := by
  intro sealed
  have hsealed : k.view sealed.2 =
      if sealed.1 then (k.view s').protect tmp len restore else k.view s' :=
        k.protect_spec _ _ _ _ _
  by_cases hseal : sealed.1 = true
  · rw [if_neg (by simp [hseal])]
    rw [if_pos hseal] at hsealed
    dsimp only
    set remapped := k.vmRemap sealed.2 start len tmp
    by_cases hremap : remapped.1 = true
    · have hview : k.view remapped.2 = (k.view sealed.2).copy start len tmp :=
        k.remap_spec _ _ _ _ hstart hlen htmp hremap
      have hcopied : ((k.view s).store dst src).AgreesOff tmp len (k.view remapped.2) := by
        rw [hview, hsealed]
        exact Vm.copy_patched hstart hlen htmp huniform
          (hoff.trans (Vm.protect_agreesOff _ _ _ _)) (hwritable.protect restore) hbytes hinside
      rw [if_pos hremap]
      exact .of_complete huniformly (kept_deallocate hcopied hfree)
    · rw [if_neg hremap]
      exact .of_unknown huniformly (.inr ⟨_, _, _, _, Bool.eq_false_of_not_eq_true hremap⟩)
  · rw [if_pos (by simpa using hseal)]
    rw [if_neg hseal] at hsealed
    exact .of_none huniformly (kept_deallocate (hsealed ▸ hoff) hfree)

/-- A patched copy that is mapped over the original. -/
theorem remapped_honest {s' : σ} (hbounds : Bounds page dst src.length start stop)
    (huniform : (k.view s).Uniform start (stop - start) restore) (hview : k.view s' = k.view s) :
    Honest k s dst src (writeRemapped k s' dst src start (stop - start) restore) := by
  have hstart := hbounds.start_le
  have hstop := hbounds.le_stop
  have hlenEq := Nat.add_sub_cancel' hbounds.lt_stop.le
  have hlenDvd : page.bytes ∣ stop - start := Nat.dvd_sub hbounds.stop_dvd hbounds.start_dvd
  have huniformly : Uniformly (k.view s) dst src.length restore :=
    ⟨hbounds.no_wrap, huniform.congr hbounds.touches⟩
  generalize stop - start = len at *
  have halloc := k.allocate_spec s' none len
  have hplace := k.place_spec s' none len
  rw [writeRemapped]
  dsimp only
  generalize k.vmAllocate s' none len = allocated at *
  obtain ⟨found, s₁⟩ := allocated
  rw [hview] at halloc hplace
  cases found with
  | none => exact .of_none huniformly (halloc ▸ .refl _)
  | some tmp =>
    dsimp only at halloc hplace ⊢
    obtain ⟨-, htmpDvd, -, hfree, -⟩ := hplace tmp rfl
    have hoff₁ : (k.view s).AgreesOff tmp len (k.view s₁) := halloc ▸ Vm.map_agreesOff _ _ _ _
    have hsurvives := hoff₁.survives hfree
    have hwritable : (k.view s₁).Uniform tmp len (protRead ||| protWrite) :=
      halloc ▸ Vm.map_uniform _ _ _ _
    cases hload : k.load s₁ start len with
    | none => exact .of_fault huniformly (load_eq_none (hsurvives.uniform huniform) hload)
    | some old =>
      obtain ⟨hlength, hold⟩ := load_spec huniform hsurvives hload
      have hwritable₂ : (k.view (k.store s₁ tmp old)).Uniform tmp len (protRead ||| protWrite) := by
        rw [k.store_spec]
        exact hwritable
      rw [Option.bind_eq_bind, Option.bind_some,
        write_eq hwritable (by decide) le_rfl (by omega), Option.bind_eq_bind, Option.bind_some,
        write_eq hwritable₂ (by decide) (by omega) (by omega), Option.bind_some]
      refine sealed_honest hbounds.start_dvd hlenDvd htmpDvd huniformly huniform hfree
        (by omega) ?_ ?_ ?_
      · rw [k.store_spec, k.store_spec]
        exact (hoff₁.trans (Vm.store_agreesOff _ le_rfl (by omega))).trans
          (Vm.store_agreesOff _ (by omega) (by omega))
      · rw [k.store_spec]
        exact hwritable₂
      · intro i hi
        rw [k.store_spec, k.store_spec]
        exact Vm.store_store_byte hlength hold (fun i hi ↦ hwritable.byte_ne_none hi)
          (by omega) hi

end Paths

/-! ## The writers are honest -/

theorem writeLocked_honest (k : Kernel σ page) (s : σ) (dst : Nat) (src : List Byte)
    (hdst : dst < 2 ^ 64) (hsize : src.length < 2 ^ 64) :
    Honest k s dst src (writeLocked k s dst src) := by
  have hbounds := @rangeBounds_spec page _ _ hdst hsize
  rw [writeLocked]
  split
  · exact .of_refused
  · rename_i start stop hrange
    rw [hrange] at hbounds
    dsimp only at hbounds ⊢
    split
    · exact .of_refused
    · rename_i restore hprotection
      have huniform := rangeProtection_uniform hprotection hbounds.lt_stop
      by_cases hopened : (k.vmProtect s start (stop - start) true (protRead ||| protWrite)).1 = true
      · obtain ⟨s₁, hwrite, hhonest⟩ := direct_honest hbounds huniform rfl hopened
        rw [if_pos hopened, hwrite]
        dsimp only [Option.bind_eq_bind, Option.bind_some] at hhonest ⊢
        generalize k.vmProtect s₁ start (stop - start) false restore = restored at *
        obtain ⟨_ | _, s₂⟩ := restored <;> exact hhonest
      · rw [if_neg hopened]
        refine remapped_honest hbounds huniform ?_
        rw [k.protect_spec, if_neg hopened]

/-- The answer, apart from what this thread remembers. -/
def answered (answer : Option (Mutation × Thread σ)) : Option (Mutation × σ) :=
  answer.map fun a ↦ (a.1, a.2.kernel)

theorem answered_hkWrite (k : Kernel σ page) (t : Thread σ) (dst : Nat) (src : List Byte) :
    answered (hkWrite k t dst src) = writeLocked k t.kernel dst src := by
  rw [hkWrite, answered]
  cases writeLocked k t.kernel dst src <;> rfl

theorem nativePatchMemory_honest (k : Kernel σ page) (pac : Pac) (t : Thread σ)
    (target data : UIntPtr) (bytes : List Byte) (hsize : bytes.length < 2 ^ 64) :
    Honest k t.kernel (pac.stripCode target).toNat bytes
      (answered (nativePatchMemory k pac t target data bytes)) := by
  rw [nativePatchMemory]
  split
  · exact .of_refused
  · split
    · exact .of_refused
    · rw [answered_hkWrite]
      exact writeLocked_honest k t.kernel _ bytes (pac.stripCode target).isLt hsize

/-- The pointer writer keeps the same promises, and it never faults. -/
theorem nativePatchPointer_honest (k : Kernel σ page) (t : Thread σ) (slot value : UIntPtr) :
    let answer := answered (nativePatchPointer k t slot value)
    Honest k t.kernel slot.toNat (LittleEndian.littleEndian 8 value.toNat) answer ∧
      answer ≠ none := by
  have hbounds := @rangeBounds_spec page slot.toNat 8 slot.isLt (by decide)
  rw [nativePatchPointer]
  split
  · exact ⟨.of_refused, Option.some_ne_none _⟩
  · split
    · exact ⟨.of_refused, Option.some_ne_none _⟩
    · rename_i start stop hrange
      rw [hrange] at hbounds
      dsimp only at hbounds ⊢
      rw [← LittleEndian.littleEndian_length 8 value.toNat] at hbounds
      split
      · exact ⟨.of_refused, Option.some_ne_none _⟩
      · rename_i restore hprotection
        have huniform := rangeProtection_uniform hprotection hbounds.lt_stop
        by_cases hopened :
            (k.vmProtect t.kernel start (stop - start) true (protRead ||| protWrite)).1 = true
        · obtain ⟨s₁, hwrite, hhonest⟩ := direct_honest hbounds huniform rfl hopened
          rw [if_pos hopened, hwrite]
          exact ⟨hhonest, Option.some_ne_none _⟩
        · rw [if_neg hopened]
          refine ⟨.of_none ⟨hbounds.no_wrap, huniform.congr hbounds.touches⟩ ?_,
            Option.some_ne_none _⟩
          rw [k.protect_spec, if_neg hopened]
          exact .refl _

/-- Two pages of code after two that are not mapped, and which calls fail. -/
def sampleThread (page : PageSize) (failing : List Bool) : Thread (PagedState page 8) where
  kernel :=
    { vm := (Vm.empty Prot page.bytes).map (2 * page.bytes) (2 * page.bytes)
        (protRead ||| protExecute)
      bounded := fun p hp ↦ if_neg fun htouch ↦ by
        have := Nat.lt_of_mul_lt_mul_right
          (show p * page.bytes < 4 * page.bytes by have := htouch.1; omega)
        omega
      failing := failing }
  memo := ⟨0, 0, 0, false⟩

/-- The failures of the calls, one after another. -/
example :
    let page : PageSize := ⟨4, by decide, by decide⟩
    let k := Kernel.paged page 8 (by decide)
    ([[], [false, true], [true, true], [true, false, true], [true, false, false, true],
        [true]].map fun failing ↦
      (nativePatchMemory k .plain (sampleThread page failing) 36 0x100 [1, 2, 3, 4]).map (·.1)) =
    [some .complete, some .unknown, some .none, some .none, some .unknown, some .complete] := by
  decide +kernel

end HookKit.NativeVm
