import HookKit.Core.Base
import HookKit.Core.PointerAuth
import HookKit.Lib.Checked
import HookKit.Lib.WordMemory

/-!
# Slots of Swift vtables

`hk_swift.c`: the slot of a method in the metadata of a class, found by reading that metadata.
Nothing of it is trusted, and every range is asked for before it is read.

* `swiftResolve`, `swiftPrepareSlot`, `swiftCommitSlot` — the functions; they are `none` where they
  read what cannot be read.
* `Layout`, `Hookable` — the metadata of a class with a vtable, and of a method that can be hooked.
* `swiftPrepareSlot_spec` — a slot is prepared exactly if the method can be hooked, and nothing is
  read that has not been found readable.
-/

set_option autoImplicit false

namespace HookKit.Swift

open WordMemory Checked

abbrev Byte := BitVec 8

/-! ## Memory -/

/-- The bytes of the process, and which of them can be read. -/
structure Memory where
  bytes : UIntPtr → Byte
  readable : UIntPtr → Bool

/-- `hk_native_range_readable`: an address and a length. -/
abbrev Oracle := UIntPtr → UIntPtr → Bool

/-- The oracle says yes only where every byte can be read. -/
def Oracle.Sound (oracle : Oracle) (m : Memory) : Prop :=
  ∀ a n, oracle a n = true → ∀ i < n.toNat, m.readable (a + BitVec.ofNat 64 i) = true

namespace Memory

variable (m : Memory)

/-- Every byte of a range can be read. -/
def CanRead (a : UIntPtr) (count : Nat) : Prop := ∀ i < count,
    m.readable (a + BitVec.ofNat 64 i) = true

instance (a : UIntPtr) (count : Nat) : Decidable (m.CanRead a count) :=
  inferInstanceAs (Decidable (∀ i < count, _))

/-- Load eight bytes; `none` is a fault. -/
def load64 (a : UIntPtr) : Option UIntPtr :=
    if m.CanRead a 8 then some (readWord m.bytes a) else none

/-- Load four bytes; `none` is a fault. -/
def load32 (a : UIntPtr) : Option (BitVec 32) :=
  if m.CanRead a 4 then some (readHalf m.bytes a) else none

end Memory

/-! ## The functions -/

/-- `HK_SWIFT_METADATA_DATA_OFFSET` and the other offsets of the metadata. -/
def metadataDataOffset : UIntPtr := 0x20
def metadataDescriptionOffset : UIntPtr := 0x40
def descVtableOffset : UIntPtr := 0x2C
def descVtableSize : UIntPtr := 0x30
def descMethods : UIntPtr := 0x34

/-- `HK_SWIFT_METADATA_IS_SWIFT_BIT`. -/
def metadataIsSwiftBit : UIntPtr := 0x2

/-- The flags of a descriptor. -/
def descKindMask : BitVec 32 := 0x1F
def descKindClass : BitVec 32 := 16
def descIsGeneric : BitVec 32 := 0x80
def descMetadataInitMask : BitVec 32 := 0x3
def descClassHasVtable : BitVec 32 := 0x80000000
def descClassHasResilientSuperclass : BitVec 32 := 0x20000000

/-- The flags of a method. -/
def methodKindMask : BitVec 32 := 0x0F
def methodIsInstance : BitVec 32 := 0x10
def methodIsAsync : BitVec 32 := 0x40
def methodExtraShift : Nat := 16

/-- The error codes of `hk_swift_last_error`. -/
inductive SwiftError where
  | notSwift | notClassDescriptor | noVtable | unsupportedLayout | pacMismatch | invalidIndex | arg
  | write | unreadable | stale
deriving DecidableEq, Repr

/-- The value of an error. -/
def SwiftError.code : SwiftError → Int
  | .notSwift => -2
  | .notClassDescriptor => -3
  | .noVtable => -4
  | .unsupportedLayout => -5
  | .pacMismatch => -8
  | .invalidIndex => -9
  | .arg => -10
  | .write => -11
  | .unreadable => -12
  | .stale => -13

/-- What `hk_swift_resolve` fills in. -/
structure Resolved where
  vtable : UIntPtr
  methods : UIntPtr
  count : BitVec 32
deriving DecidableEq

/-- `hk_swift_slot_plan_t`. -/
structure SlotPlan where
  slot : UIntPtr
  original : UIntPtr
  discriminator : UIntPtr
  prepared : Bool
deriving DecidableEq

/-- A plan after `memset`. -/
def SlotPlan.zero : SlotPlan := ⟨0, 0, 0, false⟩

variable (pac : Pac) (oracle : Oracle) (m : Memory)

/-- `hk_swift_resolve`. -/
def swiftResolve (cls : UIntPtr) : Option (Except SwiftError Resolved) :=
  if cls = 0 then some (.error .arg)
  else if oracle cls (metadataDescriptionOffset + 8) = false then some (.error .unreadable)
  else do
    let data ← m.load64 (cls + metadataDataOffset)
    if data &&& metadataIsSwiftBit = 0 then some (.error .notSwift)
    else
      let descriptionSigned ← m.load64 (cls + metadataDescriptionOffset)
      if descriptionSigned = 0 then some (.error .notSwift)
      else
        let descriptor := pac.stripKey descriptionSigned .da
        if oracle descriptor descMethods = false then some (.error .unreadable)
        else
          let flags ← m.load32 descriptor
          if flags &&& descKindMask ≠ descKindClass then some (.error .notClassDescriptor)
          else if flags &&& descClassHasVtable = 0 then some (.error .noVtable)
          else if flags &&& descIsGeneric ≠ 0 then some (.error .unsupportedLayout)
          else if flags &&& descClassHasResilientSuperclass ≠ 0 then
            some (.error .unsupportedLayout)
          else if (flags >>> 16) &&& descMetadataInitMask ≠ 0 then some (.error .unsupportedLayout)
          else
            let vtableOffset ← m.load32 (descriptor + descVtableOffset)
            let vtableSize ← m.load32 (descriptor + descVtableSize)
            let vtable := cls + vtableOffset.setWidth 64 * 8
            let methods := descriptor + descMethods
            if vtableSize > 0 ∧ (oracle vtable (vtableSize.setWidth 64 * 8) = false ∨
                oracle methods (vtableSize.setWidth 64 * 8) = false) then
              some (.error .unreadable)
            else some (.ok ⟨vtable, methods, vtableSize⟩)

/-- `hk_swift_prepare_slot`, for a plan in some state: the error, if there is one. -/
def swiftPrepareSlot (cls : UIntPtr) (index : BitVec 32) (plan : SlotPlan) :
    Option (Option SwiftError × SlotPlan) :=
  if cls = 0 then some (some .arg, plan)
  else do
    match ← swiftResolve pac oracle m cls with
    | .error e => some (some e, .zero)
    | .ok resolved =>
      if index ≥ resolved.count then some (some .invalidIndex, .zero)
      else
        let method ← m.load32 (resolved.methods + index.setWidth 64 * 8)
        if method &&& methodIsAsync ≠ 0 then some (some .unsupportedLayout, .zero)
        else if method &&& methodKindMask ≠ 0 ∨ method &&& methodIsInstance = 0 then
          some (some .unsupportedLayout, .zero)
        else
          let slot := resolved.vtable + index.setWidth 64 * 8
          let disc := pac.blend slot ((method >>> methodExtraShift).setWidth 64)
          let old ← m.load64 slot
          if pac.signKey (pac.stripCode old) .ia disc ≠ old then some (some .pacMismatch, .zero)
          else some (none, ⟨slot, old, disc, true⟩)

/-- `hk_native_patch_pointer`. -/
abbrev PatchPointer := UIntPtr → UIntPtr → Memory → Mutation × Memory

/-- What reaches the writer. -/
structure SlotWrite where
  address : UIntPtr
  value : UIntPtr
  outcome : Mutation
deriving DecidableEq

/-- What `hk_swift_commit_slot` leaves behind: its error, the plan, the published original, what has
reached the writer, and the memory. -/
structure Committed where
  error : Option SwiftError
  plan : SlotPlan
  published : Option UIntPtr
  write : Option SlotWrite
  memory : Memory

/-- `hk_swift_commit_slot`. -/
def swiftCommitSlot (patchPointer : PatchPointer) (plan : SlotPlan) (replacement : UIntPtr) :
    Option Committed :=
  if plan.prepared = false ∨ plan.slot = 0 ∨ replacement = 0 then
    some ⟨some .arg, plan, none, none, m⟩
  else if oracle plan.slot 8 = false then some ⟨some .unreadable, plan, none, none, m⟩
  else do
    let old ← m.load64 plan.slot
    if old ≠ plan.original then some ⟨some .stale, plan, none, none, m⟩
    else
      let published := pac.signKey (pac.stripCode plan.original) .ia 0
      let newValue := pac.signKey (pac.stripCode replacement) .ia plan.discriminator
      let answer := patchPointer plan.slot newValue m
      some {
        error := if answer.1 = .complete then none else some .write
        plan := { plan with prepared := decide (answer.1 = .none) }
        published := some published
        write := some ⟨plan.slot, newValue, answer.1⟩
        memory := answer.2 }

/-! ## Reading what has been found readable -/

namespace Memory

variable {oracle m} {a n : UIntPtr}

theorem canRead_of_sound (hsound : oracle.Sound m) (h : oracle a n = true) {offset count : Nat}
    (hfit : offset + count ≤ n.toNat) : m.CanRead (a + BitVec.ofNat 64 offset) count := by
  intro i hi
  have := hsound a n h (offset + i) (by omega)
  rwa [BitVec.ofNat_add, ← BitVec.add_assoc] at this

theorem load64_safe (h : m.CanRead a 8) : Safe (m.load64 a) (· = readWord m.bytes a) :=
  ⟨_, if_pos h, rfl⟩

theorem load32_safe (h : m.CanRead a 4) : Safe (m.load32 a) (· = readHalf m.bytes a) :=
  ⟨_, if_pos h, rfl⟩

/-- Entry `index` of an array of entries of eight bytes. -/
theorem canRead_of_index (hsound : oracle.Sound m) {size index : BitVec 32} (hlt : index < size)
    (h : oracle a (size.setWidth 64 * 8) = true) {count : Nat} (hcount : count ≤ 8) :
    m.CanRead (a + index.setWidth 64 * 8) count := by
  have hsize : (size.setWidth 64 * 8 : UIntPtr).toNat = 8 * size.toNat := by bv_omega
  have hindex : (index.setWidth 64 * 8 : UIntPtr) = BitVec.ofNat 64 (8 * index.toNat) := by bv_omega
  have hlt' : index.toNat < size.toNat := hlt
  rw [hindex]
  exact canRead_of_sound hsound h (by omega)

end Memory

/-! ## The metadata -/

/-- The descriptor of a class, as the metadata has it. -/
def descriptorOf (cls : UIntPtr) : UIntPtr :=
  pac.stripKey (readWord m.bytes (cls + metadataDescriptionOffset)) .da

/-- `VTableOffset` and `VTableSize`. -/
def vtableOffset (cls : UIntPtr) : BitVec 32 :=
  readHalf m.bytes (descriptorOf pac m cls + descVtableOffset)

def vtableSize (cls : UIntPtr) : BitVec 32 :=
  readHalf m.bytes (descriptorOf pac m cls + descVtableSize)

/-- Where the descriptor of a method is. -/
def methodAddress (cls : UIntPtr) (index : BitVec 32) : UIntPtr :=
  descriptorOf pac m cls + descMethods + index.setWidth 64 * 8

/-- The flags of a method. -/
def methodFlags (cls : UIntPtr) (index : BitVec 32) : BitVec 32 :=
  readHalf m.bytes (methodAddress pac m cls index)

/-- The slot of a method. -/
def slotOf (cls : UIntPtr) (index : BitVec 32) : UIntPtr :=
  cls + 8 * ((vtableOffset pac m cls).setWidth 64 + index.setWidth 64)

/-- What the pointer in the slot is signed with. -/
def discriminatorOf (cls : UIntPtr) (index : BitVec 32) : UIntPtr :=
  pac.blend (slotOf pac m cls index)
    ((methodFlags pac m cls index >>> methodExtraShift).setWidth 64)

/-- The metadata of a class with a vtable, in a layout that is supported. -/
structure Layout (cls : UIntPtr) : Prop where
  cls_ne : cls ≠ 0
  header_readable : oracle cls (metadataDescriptionOffset + 8) = true
  isSwift : readWord m.bytes (cls + metadataDataOffset) &&& metadataIsSwiftBit ≠ 0
  described : readWord m.bytes (cls + metadataDescriptionOffset) ≠ 0
  descriptor_readable : oracle (descriptorOf pac m cls) descMethods = true
  isClass : readHalf m.bytes (descriptorOf pac m cls) &&& descKindMask = descKindClass
  hasVtable : readHalf m.bytes (descriptorOf pac m cls) &&& descClassHasVtable ≠ 0
  notGeneric : readHalf m.bytes (descriptorOf pac m cls) &&& descIsGeneric = 0
  notResilient : readHalf m.bytes (descriptorOf pac m cls) &&& descClassHasResilientSuperclass = 0
  notInitialized : (readHalf m.bytes (descriptorOf pac m cls) >>> 16) &&& descMetadataInitMask = 0
  slots_readable : vtableSize pac m cls > 0 →
    oracle (cls + (vtableOffset pac m cls).setWidth 64 * 8)
      ((vtableSize pac m cls).setWidth 64 * 8) = true
  methods_readable : vtableSize pac m cls > 0 →
    oracle (descriptorOf pac m cls + descMethods) ((vtableSize pac m cls).setWidth 64 * 8) = true

/-- A method that can be hooked: an ordinary instance method, whose slot is signed as it should
be. -/
structure Hookable (cls : UIntPtr) (index : BitVec 32) : Prop where
  layout : Layout pac oracle m cls
  index_lt : index < vtableSize pac m cls
  notAsync : methodFlags pac m cls index &&& methodIsAsync = 0
  isMethod : methodFlags pac m cls index &&& methodKindMask = 0
  isInstance : methodFlags pac m cls index &&& methodIsInstance ≠ 0
  signed : pac.signKey (pac.stripCode (readWord m.bytes (slotOf pac m cls index))) .ia
    (discriminatorOf pac m cls index) = readWord m.bytes (slotOf pac m cls index)

/-- The plan for a method. -/
def planOf (cls : UIntPtr) (index : BitVec 32) : SlotPlan where
  slot := slotOf pac m cls index
  original := readWord m.bytes (slotOf pac m cls index)
  discriminator := discriminatorOf pac m cls index
  prepared := true

/-! ## What the functions do -/

section

variable {pac oracle m} {cls : UIntPtr} {index : BitVec 32}

theorem slotOf_eq (cls : UIntPtr) (index : BitVec 32) :
    cls + (vtableOffset pac m cls).setWidth 64 * 8 + index.setWidth 64 * 8 =
    slotOf pac m cls index := by
  rw [slotOf, BitVec.mul_add, BitVec.add_assoc, BitVec.mul_comm 8, BitVec.mul_comm 8]

/-- What `hk_swift_resolve` finds in a supported layout. -/
def resolvedOf (pac : Pac) (m : Memory) (cls : UIntPtr) : Resolved :=
  ⟨cls + (vtableOffset pac m cls).setWidth 64 * 8, descriptorOf pac m cls + descMethods,
    vtableSize pac m cls⟩

/-- A supported layout is resolved, every other one is refused, and the reads are inside of what has
been found readable. -/
theorem swiftResolve_spec (hsound : oracle.Sound m) (cls : UIntPtr) :
    Safe (swiftResolve pac oracle m cls) fun answer ↦
      Layout pac oracle m cls ∧ answer = .ok (resolvedOf pac m cls) ∨
      ¬ Layout pac oracle m cls ∧ ∃ e, answer = .error e := by
  unfold swiftResolve
  refine .ite (fun hcls ↦ .some (.inr ⟨fun h ↦ h.cls_ne hcls, _, rfl⟩)) fun hcls ↦ ?_
  refine .ite (fun hheader ↦ .some (.inr ⟨fun h ↦ ?_, _, rfl⟩)) fun hheader ↦ ?_
  · exact Bool.false_ne_true (hheader.symm.trans h.header_readable)
  rw [Bool.not_eq_false] at hheader
  -- the two words of the metadata
  have hdata : m.CanRead (cls + metadataDataOffset) 8 :=
    Memory.canRead_of_sound hsound hheader (show 0x20 + 8 ≤ _ by decide)
  have hdescription : m.CanRead (cls + metadataDescriptionOffset) 8 :=
    Memory.canRead_of_sound hsound hheader (show 0x40 + 8 ≤ _ by decide)
  refine (Memory.load64_safe hdata).bind ?_
  rintro _ rfl
  refine .ite (fun hswift ↦ .some (.inr ⟨fun h ↦ h.isSwift hswift, _, rfl⟩)) fun hswift ↦ ?_
  refine (Memory.load64_safe hdescription).bind ?_
  rintro _ rfl
  refine .ite (fun hnull ↦ .some (.inr ⟨fun h ↦ h.described hnull, _, rfl⟩)) fun hdescribed ↦ ?_
  dsimp only
  rw [← descriptorOf]
  refine .ite (fun hdescriptor ↦ .some (.inr ⟨fun h ↦ ?_, _, rfl⟩)) fun hdescriptor ↦ ?_
  · exact Bool.false_ne_true (hdescriptor.symm.trans h.descriptor_readable)
  rw [Bool.not_eq_false] at hdescriptor
  -- the flags of the descriptor
  have hflags : m.CanRead (descriptorOf pac m cls) 4 := by
    have := Memory.canRead_of_sound hsound hdescriptor (show 0 + 4 ≤ _ by decide)
    rwa [BitVec.add_zero] at this
  refine (Memory.load32_safe hflags).bind ?_
  rintro _ rfl
  refine .ite (fun hkind ↦ .some (.inr ⟨fun h ↦ hkind h.isClass, _, rfl⟩)) fun hkind ↦ ?_
  refine .ite (fun hbit ↦ .some (.inr ⟨fun h ↦ h.hasVtable hbit, _, rfl⟩)) fun hvtable ↦ ?_
  refine .ite (fun hbit ↦ .some (.inr ⟨fun h ↦ hbit h.notGeneric, _, rfl⟩)) fun hgeneric ↦ ?_
  refine .ite (fun hbit ↦ .some (.inr ⟨fun h ↦ hbit h.notResilient, _, rfl⟩)) fun hresilient ↦ ?_
  refine .ite (fun hbit ↦ .some (.inr ⟨fun h ↦ hbit h.notInitialized, _, rfl⟩)) fun hinit ↦ ?_
  -- the two numbers of the table
  refine (Memory.load32_safe (Memory.canRead_of_sound hsound hdescriptor
    (show 0x2C + 4 ≤ _ by decide))).bind ?_
  rintro _ rfl
  refine (Memory.load32_safe (Memory.canRead_of_sound hsound hdescriptor
    (show 0x30 + 4 ≤ _ by decide))).bind ?_
  rintro _ rfl
  refine .ite (fun hranges ↦ .some (.inr ⟨fun h ↦ ?_, _, rfl⟩)) fun hranges ↦ .some (.inl ⟨?_, rfl⟩)
  · rcases hranges with ⟨hpos, hslots | hmethods⟩
    · exact Bool.false_ne_true (hslots.symm.trans (h.slots_readable hpos))
    · exact Bool.false_ne_true (hmethods.symm.trans (h.methods_readable hpos))
  · simp only [not_and_or, not_or, Bool.not_eq_false] at hranges
    exact ⟨hcls, hheader, hswift, hdescribed, hdescriptor, not_not.mp hkind,
      hvtable, not_not.mp hgeneric,
      not_not.mp hresilient, not_not.mp hinit, fun h ↦ (hranges.resolve_left (not_not.mpr h)).1,
      fun h ↦ (hranges.resolve_left (not_not.mpr h)).2⟩

/-- A slot is prepared exactly if the method can be hooked, and nothing is read that has not been
found readable.  A plan for the null class is left as it was. -/
theorem swiftPrepareSlot_spec (hsound : oracle.Sound m) (cls : UIntPtr) (index : BitVec 32)
    (plan : SlotPlan) :
    Safe (swiftPrepareSlot pac oracle m cls index plan) fun answer ↦
      Hookable pac oracle m cls index ∧ answer = (none, planOf pac m cls index) ∨
      ¬ Hookable pac oracle m cls index ∧ answer.1 ≠ none ∧
      (answer.2 = plan ∨ answer.2 = .zero) := by
  unfold swiftPrepareSlot
  refine .ite (fun hcls ↦ .some (.inr ⟨fun h ↦ h.layout.cls_ne hcls, nofun, .inl rfl⟩))
    fun hcls ↦ ?_
  refine (swiftResolve_spec hsound cls).bind ?_
  rintro _ (⟨hlayout, rfl⟩ | ⟨hlayout, e, rfl⟩)
  case inr => exact .some (.inr ⟨fun h ↦ hlayout h.layout, nofun, .inr rfl⟩)
  dsimp only [resolvedOf]
  refine .ite (fun hge ↦ .some (.inr ⟨fun h ↦ ?_, nofun, .inr rfl⟩)) fun hlt ↦ ?_
  · exact BitVec.not_lt.mpr hge h.index_lt
  have hindex : index < vtableSize pac m cls := BitVec.not_le.mp hlt
  have hpos : vtableSize pac m cls > 0 := by bv_omega
  -- the descriptor of the method
  refine (Memory.load32_safe (Memory.canRead_of_index hsound hindex
    (hlayout.methods_readable hpos) (by decide))).bind ?_
  rintro _ rfl
  rw [← methodAddress, ← methodFlags]
  refine .ite (fun hasync ↦ .some (.inr ⟨fun h ↦ hasync h.notAsync, nofun, .inr rfl⟩))
    fun hasync ↦ ?_
  refine .ite (fun hkind ↦ .some (.inr ⟨fun h ↦ ?_, nofun, .inr rfl⟩)) fun hkind ↦ ?_
  · exact hkind.elim (· h.isMethod) h.isInstance
  obtain ⟨hmethod, hinstance⟩ := not_or.mp hkind
  -- the slot
  refine (Memory.load64_safe (Memory.canRead_of_index hsound hindex
    (hlayout.slots_readable hpos) le_rfl)).bind ?_
  rintro _ rfl
  rw [slotOf_eq, ← discriminatorOf]
  refine .ite (fun hold ↦ .some (.inr ⟨fun h ↦ hold h.signed, nofun, .inr rfl⟩)) fun hold ↦
    .some (.inl ⟨?_, rfl⟩)
  exact ⟨hlayout, hindex, not_not.mp hasync, not_not.mp hmethod, hinstance, not_not.mp hold⟩

/-- A method that can be hooked is prepared. -/
theorem Hookable.swiftPrepareSlot_eq (hsound : oracle.Sound m) (h : Hookable pac oracle m cls index)
    (plan : SlotPlan) :
    swiftPrepareSlot pac oracle m cls index plan = some (none, planOf pac m cls index) := by
  obtain ⟨answer, heq, ⟨-, rfl⟩ | ⟨hnot, -⟩⟩ := swiftPrepareSlot_spec hsound cls index plan
  · exact heq
  · exact absurd h hnot

/-- What a commit writes: the replacement, signed for the slot of the plan. -/
def writtenValue (pac : Pac) (plan : SlotPlan) (replacement : UIntPtr) : UIntPtr :=
  pac.signKey (pac.stripCode replacement) .ia plan.discriminator

/-- What the writer does for a commit. -/
def writeOf (pac : Pac) (m : Memory) (patchPointer : PatchPointer) (plan : SlotPlan)
    (replacement : UIntPtr) : Mutation × Memory :=
  patchPointer plan.slot (writtenValue pac plan replacement) m

/-- A commit writes nothing, or it writes where the plan says and what was captured still stands. -/
theorem swiftCommitSlot_spec (hsound : oracle.Sound m) (patchPointer : PatchPointer)
    (plan : SlotPlan)
    (replacement : UIntPtr) :
    Safe (swiftCommitSlot pac oracle m patchPointer plan replacement) fun result ↦
      result.error ≠ none ∧ result.plan = plan ∧ result.write = none ∧ result.memory = m ∨
      plan.prepared = true ∧ readWord m.bytes plan.slot = plan.original ∧
        result.write = some ⟨plan.slot, writtenValue pac plan replacement,
          (writeOf pac m patchPointer plan replacement).1⟩ ∧
        result.plan = ⟨plan.slot, plan.original, plan.discriminator,
          decide ((writeOf pac m patchPointer plan replacement).1 = .none)⟩ ∧
        result.memory = (writeOf pac m patchPointer plan replacement).2 := by
  unfold swiftCommitSlot
  refine .ite (fun _ ↦ .some (.inl ⟨nofun, rfl, rfl, rfl⟩)) fun harg ↦ ?_
  refine .ite (fun _ ↦ .some (.inl ⟨nofun, rfl, rfl, rfl⟩)) fun hslot ↦ ?_
  rw [Bool.not_eq_false] at hslot
  have hread : m.CanRead plan.slot 8 := by
    have := Memory.canRead_of_sound hsound hslot (show 0 + 8 ≤ _ by decide)
    rwa [BitVec.add_zero] at this
  refine (Memory.load64_safe hread).bind ?_
  rintro _ rfl
  refine .ite (fun _ ↦ .some (.inl ⟨nofun, rfl, rfl, rfl⟩)) fun hold ↦ .some (.inr ?_)
  exact ⟨(Bool.not_eq_false _).mp (not_or.mp harg).1, not_not.mp hold, rfl, rfl, rfl⟩

end

end HookKit.Swift
