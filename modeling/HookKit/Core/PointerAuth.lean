import Mathlib.Data.BitVec

/-!
# Pointer authentication

`HKPointerAuth.h`: how the pointer in a slot is signed.

* `Pac` — the three operations that the build chooses; `Pac.plain` and `Pac.test` are two of its
  choices, the third is the processor's own.
* `Pac.makeCallable`, `Pac.signSlot`, `Pac.stripSlot`, `Pac.slotMatches` — what is made of them.
* `Pac.Lawful` — a signed pointer gives back, stripped, what was signed.
-/

set_option autoImplicit false

namespace HookKit

/-- `hk_pac_key_t`. -/
inductive PacKey where
  | ia | ib | da | db
deriving DecidableEq, Repr

/-- The key with a number. -/
def PacKey.ofBits (n : Nat) : PacKey :=
  if n = 0 then .ia else if n = 1 then .ib else if n = 2 then .da else .db

/-- `hk_pac_schema_t`. -/
structure PacSchema where
  authenticated : Bool
  key : PacKey
  diversity : Nat
  addressDiversity : Bool
deriving DecidableEq, Repr

/-- A schema after `memset`: the pointer is not signed. -/
def PacSchema.zero : PacSchema := ⟨false, .ia, 0, false⟩

/-- `uintptr_t`. -/
abbrev UIntPtr := BitVec 64

/-- `hk_pac_blend`, `hk_pac_strip_key` and `hk_pac_sign_key`. -/
structure Pac where
  blend : UIntPtr → UIntPtr → UIntPtr
  stripKey : UIntPtr → PacKey → UIntPtr
  signKey : UIntPtr → PacKey → UIntPtr → UIntPtr

/-- The number of a key. -/
def PacKey.number : PacKey → UIntPtr
  | .ia => 0
  | .ib => 1
  | .da => 2
  | .db => 3

namespace Pac

/-- A build without pointer authentication. -/
def plain : Pac where
  blend _ diversity := diversity
  stripKey value _ := value
  signKey value _ _ := value

/-- `hk_pac_test_strip`. -/
def testStrip (value : UIntPtr) : UIntPtr := value &&& 0x0000FFFFFFFFFFFF#64

/-- `hk_pac_test_sign`. -/
def testSign (value : UIntPtr) (key : PacKey) (discriminator : UIntPtr) : UIntPtr :=
  let raw := testStrip value
  let hash := raw ^^^ (discriminator * 0x9E3779B185EBCA87#64) ^^^
    (key.number * 0xD6E8FEB86659FD93#64)
  let tag := ((hash >>> 17) ^^^ (hash >>> 41) ^^^ hash) &&& 0xFFFF#64
  raw ||| ((if tag = 0 then 1 else tag) <<< 48)

/-- `HK_PTRAUTH_TEST`: the stand-in of the host tests. -/
def test : Pac where
  blend address diversity := address ^^^ (diversity <<< 32) ^^^ diversity
  stripKey value _ := testStrip value
  signKey := testSign

variable (pac : Pac)

/-- `hk_pac_strip_code`. -/
def stripCode (value : UIntPtr) : UIntPtr := pac.stripKey value .ia

/-- `hk_pac_make_callable`. -/
def makeCallable (value : UIntPtr) : UIntPtr :=
  if value = 0 then 0 else pac.signKey (pac.stripCode value) .ia 0

/-- `hk_pac_slot_discriminator`. -/
def slotDiscriminator (schema : PacSchema) (slotAddress : UIntPtr) : UIntPtr :=
  if schema.addressDiversity then pac.blend slotAddress (BitVec.ofNat 64 schema.diversity)
  else BitVec.ofNat 64 schema.diversity

/-- `hk_pac_strip_slot`. -/
def stripSlot (value : UIntPtr) (schema : PacSchema) : UIntPtr :=
  if schema.authenticated then pac.stripKey value schema.key else value

/-- `hk_pac_sign_slot`. -/
def signSlot (value : UIntPtr) (schema : PacSchema) (slotAddress : UIntPtr) : UIntPtr :=
  if schema.authenticated then
    pac.signKey (pac.stripCode value) schema.key (pac.slotDiscriminator schema slotAddress)
  else pac.stripCode value

/-- `hk_pac_slot_matches`. -/
def slotMatches (value : UIntPtr) (schema : PacSchema) (slotAddress : UIntPtr) : Bool :=
  !schema.authenticated || pac.signSlot (pac.stripSlot value schema) schema slotAddress = value

/-! ## The laws of signing -/

/-- The value is an address and nothing else: there is nothing to strip from it. -/
def Raw (value : UIntPtr) : Prop := ∀ key, pac.stripKey value key = value

/-- What is documented of the three operations. -/
structure Lawful : Prop where
  strip_strip : ∀ value key, pac.stripKey (pac.stripKey value key) key = pac.stripKey value key
  strip_sign : ∀ value key discriminator, pac.Raw value →
    pac.stripKey (pac.signKey value key discriminator) key = value

theorem plain_lawful : plain.Lawful := ⟨fun _ _ ↦ rfl, fun _ _ _ _ ↦ rfl⟩

theorem testStrip_or (raw tag : UIntPtr) :
    testStrip (testStrip raw ||| tag <<< 48) = testStrip raw := by
  refine BitVec.eq_of_getLsbD_eq fun i hi ↦ ?_
  have hmask : (0x0000FFFFFFFFFFFF#64).getLsbD i = decide (i < 48) := by
    have : 0x0000FFFFFFFFFFFF#64 = BitVec.ofNat 64 (2 ^ 48 - 1) := rfl
    rw [this, BitVec.getLsbD_ofNat, Nat.testBit_two_pow_sub_one]
    simp [hi]
  simp only [testStrip, BitVec.getLsbD_and, BitVec.getLsbD_or, BitVec.getLsbD_shiftLeft, hmask]
  by_cases h : i < 48 <;> simp [h]

theorem test_lawful : test.Lawful := by
  refine ⟨fun value key ↦ ?_, fun value key discriminator hraw ↦ ?_⟩
  · change testStrip (testStrip value) = testStrip value
    have := testStrip_or value 0#64
    rwa [BitVec.zero_shiftLeft, BitVec.or_zero] at this
  · change testStrip (testSign value key discriminator) = value
    rw [testSign]
    exact (testStrip_or _ _).trans (hraw .ia)

end Pac

end HookKit
