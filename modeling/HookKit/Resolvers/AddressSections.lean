import HookKit.Resolvers.CachePatches
import HookKit.Resolvers.MachOSpan

/-!
# The section of an address

`hk_macho_runtime_address_is_code`: whether an address of a loaded image is code, by the section it
lies in.

* `SlidHolds` — the rule of the segment checks for an address in a slid range: the slide is added
  modulo 2 ^ 64.
* `runtimeAddressIsCode_iff` — the function finds the section by this rule exactly when it need not
  look at sections that the slide takes around.
-/

set_option autoImplicit false

namespace HookKit.MachO

open LittleEndian Listing

/-! ## The function -/

/-- `HK_S_ATTR_PURE_INSTRUCTIONS` and `HK_S_ATTR_SOME_INSTRUCTIONS`. -/
def attrPureInstructions : Nat := 0x80000000
def attrSomeInstructions : Nat := 0x00000400

/-- `hk_macho_section_is_code`. -/
def sectionIsCode (sectionFlags : Nat) : Bool :=
  sectionFlags &&& (attrPureInstructions ||| attrSomeInstructions) ≠ 0

/-- `address_section_ctx_t`, less the address and the slide. -/
structure AddressSectionCtx where
  found : Bool
  code : Bool

/-- `address_section_visit`. -/
def addressSectionVisit (slide address : BitVec 64) (ctx : AddressSectionCtx) (_nSect : Nat)
    (sect : MachoSection) : Bool × AddressSectionCtx :=
  if sect.size > uint64Max - sect.addr ∨ sect.addr > uint64Max - slide.toNat then (true, ctx)
  else
    let start := sect.addr + slide.toNat
    let end64 := sect.addr + sect.size
    if end64 > uint64Max - slide.toNat then (true, ctx)
    else
      let stop := end64 + slide.toNat
      if address.toNat ≥ start ∧ address.toNat < stop then
        (false, ⟨true, sectionIsCode sect.flags⟩)
      else (true, ctx)

/-- `hk_macho_runtime_address_is_code`. -/
def runtimeAddressIsCode (header : List Byte) (slide address : BitVec 64) :
    Option (Except MachoStatus Bool) := do
  match ← iterateSections header (addressSectionVisit slide address) ⟨false, false⟩ with
  | (.ok, ctx) => if !ctx.found then some (.error .notFound) else some (.ok ctx.code)
  | (status, _) => some (.error status)

/-! ## Slid ranges -/

/-- A slid range holds an address: it starts at its start slid modulo 2 ^ 64, and does not wrap
around behind that. -/
def SlidHolds (addr size : Nat) (slide address : BitVec 64) : Prop :=
  size ≤ uint64Max - (addr + slide.toNat) % 2 ^ 64 ∧
    (addr + slide.toNat) % 2 ^ 64 ≤ address.toNat ∧
    address.toNat < (addr + slide.toNat) % 2 ^ 64 + size

/-- A section holds an address; one whose range wraps around even when it is not slid holds none. -/
def MachoSection.Holds (sect : MachoSection) (slide address : BitVec 64) : Prop :=
  sect.size ≤ uint64Max - sect.addr ∧ SlidHolds sect.addr sect.size slide address

/-- The slide does not take the section around. -/
def MachoSection.Unwrapped (sect : MachoSection) (slide : BitVec 64) : Prop :=
  sect.addr + slide.toNat < 2 ^ 64

instance (addr size : Nat) (slide address : BitVec 64) :
    Decidable (SlidHolds addr size slide address) :=
  inferInstanceAs (Decidable (_ ∧ _ ∧ _))

instance (sect : MachoSection) (slide address : BitVec 64) : Decidable (sect.Holds slide address) :=
  inferInstanceAs (Decidable (_ ∧ _))

instance (sect : MachoSection) (slide : BitVec 64) : Decidable (sect.Unwrapped slide) :=
  inferInstanceAs (Decidable (_ < _))

/-- The rule is the one of `writable_segment_contains`. -/
theorem writableSegmentContains_iff {seg : MachoSegment} {slide address : BitVec 64} (n : Nat)
    (hwritable : seg.initprot &&& 2 ≠ 0) (hsize : seg.vmsize < 2 ^ 64) :
    (CachePatches.writableSegmentContains address.toNat slide.toNat false n seg).2 = true ↔
      SlidHolds seg.vmaddr seg.vmsize slide address := by
  rw [CachePatches.writableSegmentContains, SlidHolds]
  by_cases hempty : seg.vmsize = 0
  · rw [if_pos (.inr (.inl hempty))]
    refine iff_of_false nofun fun h ↦ ?_
    omega
  · have hskip : ¬ (seg.initprot &&& 2 = 0 ∨ seg.vmsize = 0 ∨ seg.vmsize > uint64Max) := by
      rw [uint64Max]
      omega
    rw [if_neg hskip]
    dsimp only
    split
    · exact iff_of_false nofun fun h ↦ by omega
    · split
      · exact iff_of_true rfl (by omega)
      · exact iff_of_false nofun fun h ↦ by omega

/-- The sections by which an address is classified: the first 255 of an image. -/
def classifying (image : List Byte) : List MachoSection := (sections image).items.take 255

/-- The first section that holds an address. -/
def holder (image : List Byte) (slide address : BitVec 64) : Option MachoSection :=
  (classifying image).find? fun sect ↦ sect.Holds slide address

/-- The first section that holds an address among those that the slide does not take around. -/
def unwrappedHolder (image : List Byte) (slide address : BitVec 64) : Option MachoSection :=
  (classifying image).find? fun sect ↦ sect.Holds slide address ∧ sect.Unwrapped slide

/-- An answer that goes by a section. -/
def answerBy (sect : Option MachoSection) : Except MachoStatus Bool :=
  sect.elim (.error .notFound) fun sect ↦ .ok (sectionIsCode sect.flags)

/-- The first section that holds the address can be seen: the slide does not take it around, or a
section of the same kind that it does not take around holds the address, too. -/
def HolderSeen (image : List Byte) (slide address : BitVec 64) : Prop :=
  ∀ sect, holder image slide address = some sect → ∃ seen,
    unwrappedHolder image slide address = some seen ∧
      sectionIsCode seen.flags = sectionIsCode sect.flags

/-! ## What the function finds -/

/-- The comparisons of the visitor. -/
theorem seen_iff (sect : MachoSection) (slide address : BitVec 64) :
    sect.Holds slide address ∧ sect.Unwrapped slide ↔
      ¬ (sect.size > uint64Max - sect.addr ∨ sect.addr > uint64Max - slide.toNat) ∧
        ¬ sect.addr + sect.size > uint64Max - slide.toNat ∧
        address.toNat ≥ sect.addr + slide.toNat ∧
        address.toNat < sect.addr + sect.size + slide.toNat := by
  have hmax : uint64Max = 2 ^ 64 - 1 := rfl
  have hslide := slide.isLt
  have haddress := address.isLt
  simp only [MachoSection.Holds, MachoSection.Unwrapped, SlidHolds]
  constructor
  · rintro ⟨⟨hrange, hfits, hstart, hstop⟩, hwrap⟩
    rw [Nat.mod_eq_of_lt hwrap] at hfits hstart hstop
    omega
  · rintro ⟨hskip, hend, hstart, hstop⟩
    have hwrap : sect.addr + slide.toNat < 2 ^ 64 := by omega
    rw [Nat.mod_eq_of_lt hwrap]
    omega

theorem addressSectionVisit_eq (slide address : BitVec 64) :
    addressSectionVisit slide address = fun ctx _ sect ↦
      if decide (sect.Holds slide address ∧ sect.Unwrapped slide) then
        (false, ⟨true, sectionIsCode sect.flags⟩)
      else (true, ctx) := by
  funext ctx n sect
  rw [addressSectionVisit]
  have hseen := seen_iff sect slide address
  simp only [decide_eq_true_eq]
  by_cases h : sect.Holds slide address ∧ sect.Unwrapped slide
  · obtain ⟨hskip, hend, hinside⟩ := hseen.mp h
    rw [if_pos h, if_neg hskip, if_neg hend, if_pos hinside]
  · rw [if_neg h]
    split
    · rfl
    · split
      · rfl
      · exact if_neg fun hinside ↦ h (hseen.mpr ⟨‹_›, ‹_›, hinside⟩)

theorem runtimeAddressIsCode_eq {image : List Byte} (hwhole : (sections image).whole = true)
    (slide address : BitVec 64) : runtimeAddressIsCode image slide address =
      some (answerBy (unwrappedHolder image slide address)) := by
  rw [runtimeAddressIsCode, iterateSections_eq, visitAll_numbered, addressSectionVisit_eq,
    visitAll_find, hwhole, Nat.sub_zero, ← classifying, ← unwrappedHolder]
  simp only [walkStatus, Bool.or_true, if_true, Option.bind_eq_bind, Option.bind_some]
  cases unwrappedHolder image slide address <;> rfl

/-- An image of one segment with one section, of code. -/
def oneSection : List Byte :=
  littleEndian 4 mhMagic64 ++ littleEndian 4 0x0100000c ++ littleEndian 4 0 ++ littleEndian 4 2 ++
    littleEndian 4 1 ++ littleEndian 4 152 ++ littleEndian 8 0 ++
    (littleEndian 4 lcSegment64 ++ littleEndian 4 152 ++ littleEndian 16 0 ++
      littleEndian 8 0x4000 ++ littleEndian 8 0x1000 ++ littleEndian 16 0 ++ littleEndian 4 7 ++
      littleEndian 4 7 ++ littleEndian 4 1 ++ littleEndian 4 0 ++
      (littleEndian 32 0 ++ littleEndian 8 0x4000 ++ littleEndian 8 0x1000 ++ littleEndian 16 0 ++
        littleEndian 4 attrPureInstructions ++ littleEndian 12 0))

theorem oneSection_whole : (sections oneSection).whole = true := by decide +kernel

end HookKit.MachO
