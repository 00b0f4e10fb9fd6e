import Mathlib.Data.BitVec
import Mathlib.Tactic.Ring

/-!
# Memory in pages

A memory is divided into pages of equal size.  A mapped page has a protection, of whatever type, and
a byte at each of its addresses; the other addresses have none.

* `Vm` — a memory; `protect`, `store`, `map`, `unmap` and `copy` are the operations on ranges.
* `Vm.AgreesOff` — two memories that differ on the pages of one range only.
* `Vm.Survives` — a memory of which all that was mapped is as it was.
* `unmap_of_agreesOff`, `protect_store_protect`, `copy_patched` — what a detour over another range,
  or over another protection, amounts to.
-/

set_option autoImplicit false

namespace PagedMemory

/-- A memory with protections of type `π`: by page number and by address. -/
@[ext]
structure Vm (π : Type) (page : Nat) where
  prot : Nat → Option π
  byte : Nat → Option (BitVec 8)
  mapped : ∀ a, (byte a).isSome = (prot (a / page)).isSome

variable {π : Type} {page : Nat}

/-- The range that begins at `start` has an address in page `p`. -/
def Touches (page start len p : Nat) : Prop := p * page < start + len ∧ start < (p + 1) * page

instance (page start len p : Nat) : Decidable (Touches page start len p) :=
  inferInstanceAs (Decidable (_ ∧ _))

namespace Vm

/-- Nothing is mapped. -/
def empty (π : Type) (page : Nat) : Vm π page := ⟨fun _ ↦ none, fun _ ↦ none, fun _ ↦ rfl⟩

variable (vm : Vm π page) (start len : Nat)

/-- Giving the mapped pages of a range a protection. -/
def protect (q : π) : Vm π page where
  prot p := if Touches page start len p then (vm.prot p).map fun _ ↦ q else vm.prot p
  byte := vm.byte
  mapped a := by
    rw [vm.mapped]
    split <;> simp

/-- Storing bytes where there are any. -/
def store (bytes : List (BitVec 8)) : Vm π page where
  prot := vm.prot
  byte a :=
    if start ≤ a ∧ a < start + bytes.length then (vm.byte a).map fun _ ↦ bytes.getD (a - start) 0
    else vm.byte a
  mapped a := by
    rw [← vm.mapped]
    split <;> simp

/-- Mapping fresh pages, filled with zeros. -/
def map (q : π) : Vm π page where
  prot p := if Touches page start len p then some q else vm.prot p
  byte a := if Touches page start len (a / page) then some 0 else vm.byte a
  mapped a := by
    split
    · rfl
    · exact vm.mapped a

/-- Unmapping the pages of a range. -/
def unmap : Vm π page where
  prot p := if Touches page start len p then none else vm.prot p
  byte a := if Touches page start len (a / page) then none else vm.byte a
  mapped a := by
    split
    · rfl
    · exact vm.mapped a

/-- Mapping the pages from `src` on over those of a range. -/
def copy [NeZero page] (src : Nat) : Vm π page where
  prot p := if Touches page start len p then vm.prot (p - start / page + src / page) else vm.prot p
  byte a :=
    if Touches page start len (a / page) then
      vm.byte ((a / page - start / page + src / page) * page + a % page)
    else vm.byte a
  mapped a := by
    split
    · rw [vm.mapped, Nat.add_div_of_dvd_right (Nat.dvd_mul_left _ _),
        Nat.mul_div_cancel _ (Nat.pos_of_neZero page),
        Nat.div_eq_of_lt (Nat.mod_lt _ (Nat.pos_of_neZero page)), Nat.add_zero]
    · exact vm.mapped a

/-- Reading the bytes of a range, if they are all mapped. -/
def read : Option (List (BitVec 8)) :=
  if ∀ i < len, (vm.byte (start + i)).isSome then
    some ((List.range len).map fun i ↦ (vm.byte (start + i)).getD 0)
  else none

end Vm

/-! ## Ranges -/

section Ranges

variable {start len p a : Nat}

theorem touches_of_mem [NeZero page] (hstart : start ≤ a) (hend : a < start + len) :
    Touches page start len (a / page) :=
  ⟨(Nat.div_mul_le_self a page).trans_lt hend,
    hstart.trans_lt (Nat.lt_mul_of_div_lt (Nat.lt_succ_self _) (Nat.pos_of_neZero page))⟩

/-- The pages of a range of whole pages. -/
theorem touches_iff_aligned [NeZero page] (hstart : page ∣ start) (hlen : page ∣ len) :
    Touches page start len p ↔ start / page ≤ p ∧ p < start / page + len / page := by
  obtain ⟨m, rfl⟩ := hstart
  obtain ⟨n, rfl⟩ := hlen
  have hpos := Nat.pos_of_neZero page
  rw [Touches, Nat.mul_div_cancel_left _ hpos, Nat.mul_div_cancel_left _ hpos, ← Nat.mul_add,
    Nat.mul_comm p, Nat.mul_comm (p + 1), Nat.mul_lt_mul_left hpos, Nat.mul_lt_mul_left hpos]
  omega

/-- Two ranges with a common address have a common page. -/
theorem exists_touches {start' len' : Nat} [NeZero page] (h : start < start' + len')
    (h' : start' < start + len) (hlen : 0 < len) (hlen' : 0 < len') :
    ∃ p, Touches page start len p ∧ Touches page start' len' p :=
  ⟨max start start' / page, touches_of_mem (by omega) (by omega), touches_of_mem
    (by omega) (by omega)⟩

/-- A range and a range of whole pages that have a common page have a common address. -/
theorem lt_of_touches {start' stop' : Nat} (hstart : page ∣ start') (hstop : page ∣ stop')
    (h : Touches page start len p) (h' : Touches page start' (stop' - start') p) :
    start < stop' ∧ start' < start + len := by
  obtain ⟨m, rfl⟩ := hstart
  obtain ⟨n, rfl⟩ := hstop
  rw [Touches, Nat.mul_comm p, Nat.mul_comm (p + 1)] at h h'
  have hm : page * m ≤ page * p :=
    Nat.mul_le_mul_left _ (Nat.le_of_lt_succ (Nat.lt_of_mul_lt_mul_left h'.2))
  have hn : page * (p + 1) ≤ page * n :=
    Nat.mul_le_mul_left _ (Nat.lt_of_mul_lt_mul_left (show page * p < page * n by omega))
  omega

end Ranges

/-! ## Memories that differ in one place -/

namespace Vm

variable {vm vm' vm'' : Vm π page} {start len : Nat} {q r : π}

/-- The memories agree outside the pages of a range. -/
structure AgreesOff (vm : Vm π page) (start len : Nat) (vm' : Vm π page) : Prop where
  prot : ∀ p, ¬ Touches page start len p → vm'.prot p = vm.prot p
  byte : ∀ a, ¬ Touches page start len (a / page) → vm'.byte a = vm.byte a

/-- What was mapped is still mapped, with the same protection and the same bytes. -/
structure Survives (vm vm' : Vm π page) : Prop where
  prot : ∀ p, vm.prot p ≠ none → vm'.prot p = vm.prot p
  byte : ∀ a, vm.byte a ≠ none → vm'.byte a = vm.byte a

/-- No page of the range is mapped. -/
def Free (vm : Vm π page) (start len : Nat) : Prop := ∀ p, Touches page start len p →
    vm.prot p = none

/-- All pages of the range have one protection. -/
def Uniform (vm : Vm π page) (start len : Nat) (q : π) : Prop :=
  ∀ p, Touches page start len p → vm.prot p = some q

theorem byte_eq_none_iff {a : Nat} : vm.byte a = none ↔ vm.prot (a / page) = none := by
  have h := vm.mapped a
  cases hb : vm.byte a <;> cases hp : vm.prot (a / page) <;> simp_all

theorem AgreesOff.refl (vm : Vm π page) (start len : Nat) : vm.AgreesOff start len vm :=
  ⟨fun _ _ ↦ rfl, fun _ _ ↦ rfl⟩

theorem AgreesOff.trans (h : vm.AgreesOff start len vm') (h' : vm'.AgreesOff start len vm'') :
    vm.AgreesOff start len vm'' :=
  ⟨fun p hp ↦ (h'.prot p hp).trans (h.prot p hp), fun a ha ↦ (h'.byte a ha).trans (h.byte a ha)⟩

theorem protect_agreesOff (vm : Vm π page) (start len : Nat) (q : π) :
    vm.AgreesOff start len (vm.protect start len q) :=
  ⟨fun _ hp ↦ if_neg hp, fun _ _ ↦ rfl⟩

theorem map_agreesOff (vm : Vm π page) (start len : Nat) (q : π) :
    vm.AgreesOff start len (vm.map start len q) :=
  ⟨fun _ hp ↦ if_neg hp, fun _ ha ↦ if_neg ha⟩

theorem unmap_agreesOff (vm : Vm π page) (start len : Nat) :
    vm.AgreesOff start len (vm.unmap start len) :=
  ⟨fun _ hp ↦ if_neg hp, fun _ ha ↦ if_neg ha⟩

theorem store_agreesOff [NeZero page] (vm : Vm π page) {a : Nat} {bytes : List (BitVec 8)}
    (hstart : start ≤ a) (hend : a + bytes.length ≤ start + len) :
    vm.AgreesOff start len (vm.store a bytes) :=
  ⟨fun _ _ ↦ rfl, fun x hx ↦ if_neg fun h ↦ hx (touches_of_mem (by omega) (by omega))⟩

/-- A detour over a range that was free leaves no trace once the range is unmapped. -/
theorem AgreesOff.unmap (h : vm.AgreesOff start len vm') (hfree : vm.Free start len) :
    vm'.unmap start len = vm := by
  refine Vm.ext (funext fun p ↦ ?_) (funext fun a ↦ ?_)
  · by_cases hp : Touches page start len p
    · exact (if_pos hp).trans (hfree p hp).symm
    · exact (if_neg hp).trans (h.prot p hp)
  · by_cases ha : Touches page start len (a / page)
    · exact (if_pos ha).trans (byte_eq_none_iff.mpr (hfree _ ha)).symm
    · exact (if_neg ha).trans (h.byte a ha)

theorem Survives.refl (vm : Vm π page) : vm.Survives vm := ⟨fun _ _ ↦ rfl, fun _ _ ↦ rfl⟩

theorem Survives.trans (h : vm.Survives vm') (h' : vm'.Survives vm'') : vm.Survives vm'' where
  prot p hp := by
    have := h.prot p hp
    exact (h'.prot p (this.trans_ne hp)).trans this
  byte a ha := by
    have := h.byte a ha
    exact (h'.byte a (this.trans_ne ha)).trans this

/-- Everything that was mapped survives what happens in a range that was free. -/
theorem AgreesOff.survives (h : vm.AgreesOff start len vm') (hfree : vm.Free start len) :
    vm.Survives vm' where
  prot p hp := h.prot p fun htouch ↦ hp (hfree p htouch)
  byte a ha := h.byte a fun htouch ↦ ha (byte_eq_none_iff.mpr (hfree _ htouch))

/-! ## Ranges with one protection -/

theorem Survives.uniform (h : vm.Survives vm') (huniform : vm.Uniform start len q) :
    vm'.Uniform start len q := fun p hp ↦ by
  rw [h.prot p (by rw [huniform p hp]; exact Option.some_ne_none q), huniform p hp]

theorem Uniform.protect (h : vm.Uniform start len q) (r : π) :
    (vm.protect start len r).Uniform start len r := fun p hp ↦ by
  simp [Vm.protect, hp, h p hp]

theorem map_uniform (vm : Vm π page) (start len : Nat) (q : π) :
    (vm.map start len q).Uniform start len q := fun _ hp ↦ if_pos hp

/-- The bytes of such a range are there. -/
theorem Uniform.byte_ne_none [NeZero page] (h : vm.Uniform start len q) {i : Nat} (hi : i < len) :
    vm.byte (start + i) ≠ none := by
  rw [Ne, byte_eq_none_iff, h _ (touches_of_mem (by omega) (by omega))]
  exact Option.some_ne_none q

theorem Uniform.congr {start' len' : Nat} (h : vm.Uniform start len q)
    (htouches : ∀ p, Touches page start len p ↔ Touches page start' len' p) :
    vm.Uniform start' len' q := fun p hp ↦ h p ((htouches p).mpr hp)

theorem protect_congr {start' len' : Nat} (vm : Vm π page) (q : π)
    (htouches : ∀ p, Touches page start len p ↔ Touches page start' len' p) :
    vm.protect start len q = vm.protect start' len' q :=
  Vm.ext (funext fun p ↦ by simp only [Vm.protect, htouches]) rfl

/-! ## Detours -/

theorem store_byte (vm : Vm π page) (a : Nat) (bytes : List (BitVec 8)) (x : Nat) :
    (vm.store a bytes).byte x =
      if a ≤ x ∧ x < a + bytes.length then (vm.byte x).map fun _ ↦ bytes.getD (x - a) 0
      else vm.byte x := rfl

/-- Storing under another protection that is taken back. -/
theorem protect_store_protect {a : Nat} (bytes : List (BitVec 8)) (h : vm.Uniform start len q) :
    ((vm.protect start len r).store a bytes).protect start len q = vm.store a bytes := by
  refine Vm.ext (funext fun p ↦ ?_) rfl
  simp only [protect, store]
  by_cases hp : Touches page start len p
  · simp [hp, h p hp]
  · simp [hp]

theorem read_spec {a n : Nat} {bytes : List (BitVec 8)} (h : vm.read a n = some bytes) :
    bytes.length = n ∧ ∀ i < n, vm.byte (a + i) = some (bytes.getD i 0) := by
  rw [read] at h
  split at h
  · rename_i hmapped
    cases h
    refine ⟨by simp, fun i hi ↦ ?_⟩
    obtain ⟨b, hb⟩ := Option.isSome_iff_exists.mp (hmapped i hi)
    simp [List.getD_eq_getElem?_getD, hi, hb]
  · cases h

/-- Bytes that are mapped can be read. -/
theorem read_isSome {a n : Nat} (h : ∀ i < n, vm.prot ((a + i) / page) ≠ none) :
    ∃ bytes, vm.read a n = some bytes :=
  ⟨_, if_pos fun i hi ↦ Option.isSome_iff_ne_none.mpr fun hnone ↦
    h i hi (byte_eq_none_iff.mp hnone)⟩

/-- Storing a copy of a range and a patch over it gives what the patch makes of the range. -/
theorem store_store_byte {tmp dst : Nat} {old src : List (BitVec 8)}
    (hold : old.length = len) (hread : ∀ i < len, vm.byte (start + i) = some (old.getD i 0))
    (hmapped : ∀ i < len, vm'.byte (tmp + i) ≠ none)
    (hinside : start ≤ dst ∧ dst + src.length ≤ start + len) {i : Nat} (hi : i < len) :
    ((vm'.store tmp old).store (tmp + (dst - start)) src).byte (tmp + i) =
      (vm.store dst src).byte (start + i) := by
  obtain ⟨b, hb⟩ := Option.ne_none_iff_exists'.mp (hmapped i hi)
  have hcopied : (vm'.store tmp old).byte (tmp + i) = some (old.getD i 0) := by
    rw [store_byte, if_pos (by omega), hb, Nat.add_sub_cancel_left]
    rfl
  rw [store_byte, store_byte vm]
  by_cases hpatch : dst ≤ start + i ∧ start + i < dst + src.length
  · rw [if_pos (by omega), if_pos hpatch, hcopied, hread i hi,
      show tmp + i - (tmp + (dst - start)) = start + i - dst by omega]
  · rw [if_neg (by omega), if_neg hpatch, hcopied, hread i hi]

/-- Copying a patched page back over the page it was taken from. -/
theorem copy_patched [NeZero page] {tmp dst : Nat} {src : List (BitVec 8)}
    (hstart : page ∣ start) (hlen : page ∣ len) (htmp : page ∣ tmp)
    (huniform : vm.Uniform start len q) (hoff : vm.AgreesOff tmp len vm')
    (hprot : vm'.Uniform tmp len q)
    (hbytes : ∀ i < len, vm'.byte (tmp + i) = (vm.store dst src).byte (start + i))
    (hinside : start ≤ dst ∧ dst + src.length ≤ start + len) :
    (vm.store dst src).AgreesOff tmp len (vm'.copy start len tmp) := by
  constructor
  · intro p hp
    simp only [copy]
    split
    · rename_i htouch
      obtain ⟨hge, hlt⟩ := (touches_iff_aligned hstart hlen).mp htouch
      have htmpPage : Touches page tmp len (p - start / page + tmp / page) :=
        (touches_iff_aligned htmp hlen).mpr (by omega)
      exact (hprot _ htmpPage).trans (huniform p htouch).symm
    · exact hoff.prot p hp
  · intro a ha
    simp only [copy]
    split
    · rename_i htouch
      obtain ⟨hge, hlt⟩ := (touches_iff_aligned hstart hlen).mp htouch
      obtain ⟨m, rfl⟩ := hstart
      obtain ⟨n, rfl⟩ := hlen
      obtain ⟨t, rfl⟩ := htmp
      have hpos := Nat.pos_of_neZero page
      rw [Nat.mul_div_cancel_left _ hpos] at hge hlt ⊢
      rw [Nat.mul_div_cancel_left _ hpos] at hlt ⊢
      obtain ⟨k, hk⟩ := Nat.exists_eq_add_of_le hge
      have hmod := Nat.mod_lt a hpos
      have ha : a = page * m + (page * k + a % page) := by
        rw [← Nat.add_assoc, ← Nat.mul_add, ← hk, Nat.div_add_mod]
      have hi : page * k + a % page < page * n :=
        calc page * k + a % page < page * (k + 1) := by rw [Nat.mul_succ]; omega
          _ ≤ page * n := Nat.mul_le_mul_left page (by omega)
      have hsource : (a / page - m + t) * page + a % page = page * t + (page * k + a % page) := by
        rw [hk, Nat.add_sub_cancel_left]
        ring
      rw [hsource, hbytes _ hi, ← ha]
    · rename_i htouch
      refine (hoff.byte a ha).trans
        (if_neg fun h ↦ htouch (touches_of_mem (by omega) (by omega))).symm

end Vm

end PagedMemory
