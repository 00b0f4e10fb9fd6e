import HookKit.Native.SwiftSlots
import Mathlib.Logic.Function.Basic

/-!
# Runs of the Swift slot functions

Plans are prepared and committed in any order, several of them for one slot, while others change the
memory in between.

* `World`, `Op`, `step` — the plans of a run, and what happens to them; `origin` remembers for a
  plan what it was prepared from, and `spent` counts the writes since.
* `Reached.planned` — a plan that is prepared is the plan of its origin, and nothing has been
  written with it.
* `commits_exact` — the main result.  That a slot can be prepared again after a write asks for two
  things that `hk_swift_prepare_slot` does not look at: that the slot is none of the words it has
  read itself, and that these are still as they were.
* `self_slot_refused` — a class whose table reaches into its own header.
-/

set_option autoImplicit false

namespace HookKit.Swift

open WordMemory Checked

/-! ## A run -/

/-- What a plan has been prepared from. -/
structure Origin where
  memory : Memory
  oracle : Oracle
  cls : UIntPtr
  index : BitVec 32

/-- A run: its memory, its plans, and what there is to say about them. -/
structure World where
  memory : Memory
  plans : Nat → SlotPlan
  origin : Nat → Option Origin
  spent : Nat → Nat

/-- Nothing has been prepared yet. -/
def World.fresh (memory : Memory) (plans : Nat → SlotPlan) : World :=
    ⟨memory, plans, fun _ ↦ none, fun _ ↦ 0⟩

/-- What happens in a run: the two calls, and changes made by others. -/
inductive Op where
  | prepare (oracle : Oracle) (cls : UIntPtr) (index : BitVec 32) (plan : Nat)
  | commit (oracle : Oracle) (patchPointer : PatchPointer) (plan : Nat) (replacement : UIntPtr)
  | outside (memory : Memory)

/-- A writer that says that it is done has stored the word. -/
def Stores (patchPointer : PatchPointer) : Prop :=
  ∀ a v m, (patchPointer a v m).1 = .complete → (patchPointer a v m).2.bytes = writeWord m.bytes a v

/-- The oracle of a call is right about the memory it is asked about, and the writer about what it
has done. -/
def Op.Sound (w : World) : Op → Prop
  | .prepare oracle _ _ _ => oracle.Sound w.memory
  | .commit oracle patchPointer _ _ => oracle.Sound w.memory ∧ Stores patchPointer
  | .outside _ => True

variable (pac : Pac)

/-- A call that has prepared a plan. -/
def World.prepared (w : World) (oracle : Oracle) (cls : UIntPtr) (index : BitVec 32) (plan : Nat)
    (answer : Option SwiftError × SlotPlan) : World where
  memory := w.memory
  plans := Function.update w.plans plan answer.2
  origin := if answer.1 = none then Function.update w.origin plan
    (some ⟨w.memory, oracle, cls, index⟩)
    else w.origin
  spent := if answer.1 = none then Function.update w.spent plan 0 else w.spent

/-- A call that has committed a plan. -/
def World.committed (w : World) (plan : Nat) (result : Committed) : World where
  memory := result.memory
  plans := Function.update w.plans plan result.plan
  origin := w.origin
  spent := match result.write with
    | some write =>
      if write.outcome = .none then w.spent else Function.update w.spent plan (w.spent plan + 1)
    | none => w.spent

/-- One thing that happens, and what reaches the writer. -/
def step (w : World) : Op → Option (World × Option SlotWrite)
  | .prepare oracle cls index plan => do
    let answer ← swiftPrepareSlot pac oracle w.memory cls index (w.plans plan)
    some (w.prepared oracle cls index plan answer, none)
  | .commit oracle patchPointer plan replacement => do
    let result ← swiftCommitSlot pac oracle w.memory patchPointer (w.plans plan) replacement
    some (w.committed plan result, result.write)
  | .outside memory => some ({ w with memory }, none)

/-- The worlds that are reached from one without a prepared plan. -/
inductive Reached : World → Prop where
  | start {memory : Memory} {plans : Nat → SlotPlan} (h : ∀ p, (plans p).prepared = false) :
      Reached (.fresh memory plans)
  | next {w w' : World} {op : Op} {write : Option SlotWrite} : Reached w → op.Sound w →
      step pac w op = some (w', write) → Reached w'

/-! ## What is true of every plan -/

/-- A method that could be hooked when the plan was prepared. -/
def Origin.Hookable (o : Origin) : Prop := Swift.Hookable pac o.oracle o.memory o.cls o.index

/-- The plan that has been made then. -/
def Origin.plan (o : Origin) : SlotPlan := planOf pac o.memory o.cls o.index

/-- A plan that is prepared is the plan of its origin and has written nothing yet; no plan has
written twice. -/
structure Planned (w : World) : Prop where
  prepared : ∀ p, (w.plans p).prepared = true →
    ∃ o, w.origin p = some o ∧ o.Hookable pac ∧ w.plans p = o.plan pac ∧ w.spent p = 0
  spent_le : ∀ p, w.spent p ≤ 1

section

variable {pac} {w w' : World} {op : Op} {write : Option SlotWrite}

theorem Planned.fresh {memory : Memory} {plans : Nat → SlotPlan}
    (h : ∀ p, (plans p).prepared = false) :
    Planned pac (.fresh memory plans) where
  prepared p hp := by cases (h p).symm.trans hp
  spent_le _ := Nat.zero_le 1

/-- Preparing a plan reads only what can be read, and writes nothing. -/
theorem Planned.prepare (hw : Planned pac w) {oracle : Oracle} (hsound : oracle.Sound w.memory)
    (cls : UIntPtr) (index : BitVec 32) (plan : Nat) :
    Safe (step pac w (.prepare oracle cls index plan)) fun r ↦ Planned pac r.1 ∧ r.2 = none := by
  refine (swiftPrepareSlot_spec hsound cls index (w.plans plan)).bind fun answer hanswer ↦
    .some ⟨?_, rfl⟩
  rcases hanswer with ⟨hhookable, rfl⟩ | ⟨-, herror, hkept⟩
  · -- the plan has a new origin
    constructor
    · intro p hp
      by_cases hplan : p = plan
      · subst hplan
        exact ⟨⟨w.memory, oracle, cls, index⟩, Function.update_self .., hhookable,
          Function.update_self .., Function.update_self ..⟩
      · simp only [World.prepared, if_true, Function.update_of_ne hplan] at hp ⊢
        exact hw.prepared p hp
    · intro p
      by_cases hplan : p = plan
      · subst hplan
        simp [World.prepared]
      · simp only [World.prepared, if_true, Function.update_of_ne hplan]
        exact hw.spent_le p
  · -- the plan is as before, or not prepared
    simp only [World.prepared, if_neg herror]
    refine ⟨fun p hp ↦ ?_, hw.spent_le⟩
    by_cases hplan : p = plan
    · subst hplan
      simp only [Function.update_self] at hp ⊢
      rcases hkept with hkept | hkept <;> rw [hkept] at hp ⊢
      · exact hw.prepared p hp
      · cases hp
    · simp only [Function.update_of_ne hplan] at hp ⊢
      exact hw.prepared p hp

/-- A write is made with a plan that is prepared, and only while the slot holds what was
captured. -/
theorem Planned.commit (hw : Planned pac w) {oracle : Oracle} (hsound : oracle.Sound w.memory)
    (patchPointer : PatchPointer) (plan : Nat) (replacement : UIntPtr) :
    Safe (step pac w (.commit oracle patchPointer plan replacement)) fun r ↦ Planned pac r.1 ∧
      ∀ written, r.2 = some written → ∃ o, w.origin plan = some o ∧
      o.Hookable pac ∧ w.spent plan = 0 ∧
        readWord w.memory.bytes (o.plan pac).slot = (o.plan pac).original ∧
        written = ⟨(o.plan pac).slot, writtenValue pac (o.plan pac) replacement,
          (writeOf pac w.memory patchPointer (o.plan pac) replacement).1⟩ ∧
        r.1.memory = (writeOf pac w.memory patchPointer (o.plan pac) replacement).2 := by
  refine (swiftCommitSlot_spec hsound patchPointer (w.plans plan) replacement).bind
    fun result hresult ↦ .some ?_
  rcases hresult with ⟨-, hplan, hwrite, hmemory⟩ | ⟨hprepared, hold, hwrite, hplan, hmemory⟩
  · -- nothing is written
    refine ⟨?_, by rw [hwrite]; exact nofun⟩
    rw [World.committed, hplan, hwrite, Function.update_eq_self]
    exact ⟨hw.prepared, hw.spent_le⟩
  · obtain ⟨o, horigin, hhookable, hof, hspent⟩ := hw.prepared plan hprepared
    rw [hof] at hold hwrite hplan hmemory
    refine ⟨⟨fun p hp ↦ ?_, fun p ↦ ?_⟩, ?_⟩
    · by_cases hp' : p = plan
      · -- it is still prepared: the writer has left the slot alone
        subst hp'
        have hnone : (writeOf pac w.memory patchPointer (o.plan pac) replacement).1 = .none := by
          simpa [World.committed, hplan] using hp
        refine ⟨o, horigin, hhookable, ?_, ?_⟩
        · simp only [World.committed, Function.update_self, hplan, hnone, decide_true]
          rfl
        · simpa only [World.committed, hwrite, if_pos hnone] using hspent
      · have hp : (w.plans p).prepared = true := by
          simpa only [World.committed, Function.update_of_ne hp'] using hp
        obtain ⟨o', horigin', hhookable', hof', hspent'⟩ := hw.prepared p hp
        refine ⟨o', horigin', hhookable', ?_, ?_⟩
        · simpa only [World.committed, Function.update_of_ne hp'] using hof'
        · simp only [World.committed, hwrite]
          split
          · exact hspent'
          · rwa [Function.update_of_ne hp']
    · simp only [World.committed, hwrite]
      split
      · exact hw.spent_le p
      · by_cases hp' : p = plan
        · subst hp'
          rw [Function.update_self, hspent]
        · rw [Function.update_of_ne hp']
          exact hw.spent_le p
    · rintro written hwritten
      cases hwrite.symm.trans hwritten
      exact ⟨o, horigin, hhookable, hspent, hold, rfl, hmemory⟩

/-- What happens in a sound step. -/
theorem Planned.step (hw : Planned pac w) (hsound : op.Sound w) :
    Safe (Swift.step pac w op) fun r ↦ Planned pac r.1 := by
  cases op with
  | prepare oracle cls index plan => exact (hw.prepare hsound cls index plan).mono fun _ h ↦ h.1
  | commit oracle patchPointer plan replacement =>
    exact (hw.commit hsound.1 patchPointer plan replacement).mono fun _ h ↦ h.1
  | outside memory => exact .some ⟨hw.prepared, hw.spent_le⟩

theorem Reached.planned (h : Reached pac w) : Planned pac w := by
  induction h with
  | start h => exact .fresh h
  | next _ hsound hstep ih => exact (ih.step hsound).of_eq hstep

end

/-! ## After a write -/

/-- What `hk_swift_prepare_slot` reads besides the slot is the same in two memories. -/
structure SameMetadata (cls : UIntPtr) (index : BitVec 32) (m m' : Memory) : Prop where
  data : readWord m'.bytes (cls + metadataDataOffset) = readWord m.bytes (cls + metadataDataOffset)
  description : readWord m'.bytes (cls + metadataDescriptionOffset) =
    readWord m.bytes (cls + metadataDescriptionOffset)
  flags : readHalf m'.bytes (descriptorOf pac m cls) = readHalf m.bytes (descriptorOf pac m cls)
  offset : readHalf m'.bytes (descriptorOf pac m cls + descVtableOffset) =
    readHalf m.bytes (descriptorOf pac m cls + descVtableOffset)
  size : readHalf m'.bytes (descriptorOf pac m cls + descVtableSize) =
    readHalf m.bytes (descriptorOf pac m cls + descVtableSize)
  method : readHalf m'.bytes (methodAddress pac m cls index) =
    readHalf m.bytes (methodAddress pac m cls index)

/-- The slot shares no byte with it. -/
structure SlotApart (cls : UIntPtr) (index : BitVec 32) (m : Memory) : Prop where
  data : Separate (cls + metadataDataOffset) (slotOf pac m cls index)
  description : Separate (cls + metadataDescriptionOffset) (slotOf pac m cls index)
  flags : HalfSeparate (descriptorOf pac m cls) (slotOf pac m cls index)
  offset : HalfSeparate (descriptorOf pac m cls + descVtableOffset) (slotOf pac m cls index)
  size : HalfSeparate (descriptorOf pac m cls + descVtableSize) (slotOf pac m cls index)
  method : HalfSeparate (methodAddress pac m cls index) (slotOf pac m cls index)

section

variable {pac} {cls : UIntPtr} {index : BitVec 32} {m₀ m m' : Memory}

/-- A write to the slot leaves the rest alone. -/
theorem SameMetadata.written (h : SameMetadata pac cls index m₀ m)
    (hapart : SlotApart pac cls index m₀)
    {v : UIntPtr} (hbytes : m'.bytes = writeWord m.bytes (slotOf pac m₀ cls index) v) :
    SameMetadata pac cls index m₀ m' where
  data := by rw [hbytes, readWord_writeWord_of_separate v hapart.data, h.data]
  description := by rw [hbytes, readWord_writeWord_of_separate v hapart.description, h.description]
  flags := by rw [hbytes, readHalf_writeWord_of_separate v hapart.flags, h.flags]
  offset := by rw [hbytes, readHalf_writeWord_of_separate v hapart.offset, h.offset]
  size := by rw [hbytes, readHalf_writeWord_of_separate v hapart.size, h.size]
  method := by rw [hbytes, readHalf_writeWord_of_separate v hapart.method, h.method]

namespace SameMetadata

variable (h : SameMetadata pac cls index m m')

include h

theorem descriptorOf_eq : descriptorOf pac m' cls = descriptorOf pac m cls := by
  rw [descriptorOf, h.description, ← descriptorOf]

theorem vtableOffset_eq : vtableOffset pac m' cls = vtableOffset pac m cls := by
  rw [vtableOffset, h.descriptorOf_eq, h.offset, ← vtableOffset]

theorem vtableSize_eq : vtableSize pac m' cls = vtableSize pac m cls := by
  rw [vtableSize, h.descriptorOf_eq, h.size, ← vtableSize]

theorem methodFlags_eq : methodFlags pac m' cls index = methodFlags pac m cls index := by
  rw [methodFlags, methodAddress, h.descriptorOf_eq, ← methodAddress, h.method, ← methodFlags]

theorem slotOf_eq : slotOf pac m' cls index = slotOf pac m cls index := by
  rw [slotOf, h.vtableOffset_eq, ← slotOf]

theorem discriminatorOf_eq : discriminatorOf pac m' cls index =
    discriminatorOf pac m cls index := by
  rw [discriminatorOf, h.slotOf_eq, h.methodFlags_eq, ← discriminatorOf]

/-- The layout is supported as before. -/
theorem layout {oracle oracle' : Oracle} (hmore : ∀ a n, oracle a n = true → oracle' a n = true)
    (hlayout : Layout pac oracle m cls) : Layout pac oracle' m' cls where
  cls_ne := hlayout.cls_ne
  header_readable := hmore _ _ hlayout.header_readable
  isSwift := by rw [h.data]; exact hlayout.isSwift
  described := by rw [h.description]; exact hlayout.described
  descriptor_readable := by rw [h.descriptorOf_eq]; exact hmore _ _ hlayout.descriptor_readable
  isClass := by rw [h.descriptorOf_eq, h.flags]; exact hlayout.isClass
  hasVtable := by rw [h.descriptorOf_eq, h.flags]; exact hlayout.hasVtable
  notGeneric := by rw [h.descriptorOf_eq, h.flags]; exact hlayout.notGeneric
  notResilient := by rw [h.descriptorOf_eq, h.flags]; exact hlayout.notResilient
  notInitialized := by rw [h.descriptorOf_eq, h.flags]; exact hlayout.notInitialized
  slots_readable hpos := by
    rw [h.vtableOffset_eq, h.vtableSize_eq]
    exact hmore _ _ (hlayout.slots_readable (by rwa [← h.vtableSize_eq]))
  methods_readable hpos := by
    rw [h.descriptorOf_eq, h.vtableSize_eq]
    exact hmore _ _ (hlayout.methods_readable (by rwa [← h.vtableSize_eq]))

/-- A method whose slot is signed as it should be can be hooked as before. -/
theorem hookable {oracle oracle' : Oracle} (hmore : ∀ a n, oracle a n = true → oracle' a n = true)
    (hhookable : Hookable pac oracle m cls index)
    (hsigned : pac.signKey (pac.stripCode (readWord m'.bytes (slotOf pac m cls index))) .ia
      (discriminatorOf pac m cls index) = readWord m'.bytes (slotOf pac m cls index)) :
    Hookable pac oracle' m' cls index where
  layout := h.layout hmore hhookable.layout
  index_lt := by rw [h.vtableSize_eq]; exact hhookable.index_lt
  notAsync := by rw [h.methodFlags_eq]; exact hhookable.notAsync
  isMethod := by rw [h.methodFlags_eq]; exact hhookable.isMethod
  isInstance := by rw [h.methodFlags_eq]; exact hhookable.isInstance
  signed := by rw [h.slotOf_eq, h.discriminatorOf_eq]; exact hsigned

end SameMetadata

end

/-- What a write that reaches the writer has to be, for a plan with an origin. -/
structure ExactWrite (w : World) (o : Origin) (replacement : UIntPtr)
    (written : SlotWrite) : Prop where
  hookable : o.Hookable pac
  address : written.address =
    o.cls + 8 * ((vtableOffset pac o.memory o.cls).setWidth 64 + o.index.setWidth 64)
  captured : readWord w.memory.bytes written.address = readWord o.memory.bytes written.address
  value : written.value =
    pac.signKey (pac.stripCode replacement) .ia (discriminatorOf pac o.memory o.cls o.index)

/-- The slot can be prepared again, with an original that is the replacement. -/
def PreparedAgain (m : Memory) (o : Origin) (replacement : UIntPtr) (slot : UIntPtr) : Prop :=
  ∀ oracle : Oracle, oracle.Sound m → (∀ a n, o.oracle a n = true → oracle a n = true) →
    ∀ plan, ∃ plan',
    swiftPrepareSlot pac oracle m o.cls o.index plan = some (none, plan') ∧ plan'.slot = slot ∧
    pac.stripCode plan'.original = pac.stripCode replacement

variable {pac}

/-- Stripping gives back what was signed. -/
def Inverts (pac : Pac) : Prop :=
  ∀ value discriminator, pac.stripCode (pac.signKey (pac.stripCode value) .ia discriminator) =
    pac.stripCode value

/-- After the word has been stored, apart from the metadata and with that as it was. -/
theorem preparedAgain (hinverts : Inverts pac) {o : Origin} (hhookable : o.Hookable pac)
    (hapart : SlotApart pac o.cls o.index o.memory) {m m' : Memory}
    (hsame : SameMetadata pac o.cls o.index o.memory m) {replacement : UIntPtr}
    (hbytes : m'.bytes =
      writeWord m.bytes (o.plan pac).slot (writtenValue pac (o.plan pac) replacement)) :
    PreparedAgain pac m' o replacement (o.plan pac).slot := by
  intro oracle hsound hmore plan
  have hsame' : SameMetadata pac o.cls o.index o.memory m' := hsame.written hapart hbytes
  have hstored : readWord m'.bytes (slotOf pac o.memory o.cls o.index) =
      writtenValue pac (o.plan pac) replacement := by
    rw [hbytes]
    exact readWord_writeWord _ _ _
  have hstrip : pac.stripCode (writtenValue pac (o.plan pac) replacement) =
      pac.stripCode replacement :=
    hinverts replacement _
  have hagain : Hookable pac oracle m' o.cls o.index := by
    refine hsame'.hookable hmore hhookable ?_
    rw [hstored, hstrip]
    rfl
  refine ⟨_, hagain.swiftPrepareSlot_eq hsound plan, hsame'.slotOf_eq, ?_⟩
  rw [planOf, hsame'.slotOf_eq, hstored, hstrip]

/-- In every run, with oracles that are right about what can be read: no call reads what cannot be
read; a plan writes once at most; and what reaches the writer is the replacement, signed for the
slot, at the slot of a method that could be hooked when the plan was prepared, while the slot holds
what it held then.  After a complete write the slot can be prepared again if it shares no byte with
the metadata that is read for it, and if this is as it was. -/
theorem commits_exact {w : World} (hreach : Reached pac w) {op : Op} (hsound : op.Sound w) :
    ∃ w' write, step pac w op = some (w', write) ∧ (∀ p, w'.spent p ≤ 1) ∧
      ∀ written, write = some written → ∃ oracle patchPointer p replacement o,
        op = .commit oracle patchPointer p replacement ∧ w.origin p = some o ∧ w.spent p = 0 ∧
        ExactWrite pac w o replacement written ∧
        (Inverts pac → written.outcome = .complete → SlotApart pac o.cls o.index o.memory →
          SameMetadata pac o.cls o.index o.memory w.memory →
          PreparedAgain pac w'.memory o replacement written.address) := by
  have hw := hreach.planned
  cases op with
  | prepare oracle cls index plan =>
    obtain ⟨⟨w', write⟩, hstep, hw', hnone⟩ := hw.prepare hsound cls index plan
    exact ⟨w', write, hstep, hw'.spent_le, fun written h ↦ by cases hnone.symm.trans h⟩
  | outside memory => exact ⟨_, _, rfl, hw.spent_le, nofun⟩
  | commit oracle patchPointer p replacement =>
    obtain ⟨hsound, hstores⟩ := hsound
    obtain ⟨⟨w', write⟩, hstep, hw', hwrite⟩ := hw.commit hsound patchPointer p replacement
    refine ⟨w', write, hstep, hw'.spent_le, fun written h ↦ ?_⟩
    obtain ⟨o, horigin, hhookable, hspent, hold, rfl, hmemory⟩ := hwrite written h
    refine ⟨oracle, patchPointer, p, replacement, o, rfl, horigin, hspent,
      ⟨hhookable, rfl, hold, rfl⟩, fun hinverts hcomplete hapart hsame ↦ ?_⟩
    refine preparedAgain hinverts hhookable hapart hsame ?_
    rw [show w'.memory = _ from hmemory]
    exact hstores _ _ _ hcomplete

/-! ## A class at `0x10000`, its descriptor at `0x20000` -/

/-- A class with one method, and the word in its slot. -/
def classMemory (offset word : UIntPtr) : Memory where
  bytes :=
    let bytes := writeWord (fun _ ↦ 0) (0x10000 + metadataDataOffset) metadataIsSwiftBit
    let bytes := writeWord bytes (0x10000 + metadataDescriptionOffset) 0x20000
    let bytes := writeWord bytes 0x20000 0x80000010
    let bytes := writeWord bytes (0x20000 + descVtableOffset) (offset ||| 0x100000000)
    let bytes := writeWord bytes (0x20000 + descMethods) 0x70010
    writeWord bytes (0x10000 + 8 * offset) word
  readable _ := true

/-- Everything can be read. -/
def everywhere : Oracle := fun _ _ ↦ true

theorem everywhere_sound (offset word : UIntPtr) : everywhere.Sound (classMemory offset word) :=
  fun _ _ _ _ _ ↦ rfl

/-- A writer that stores the word. -/
def storeWord : PatchPointer := fun a v m ↦ (.complete, ⟨writeWord m.bytes a v, m.readable⟩)

theorem storeWord_stores : Stores storeWord := fun _ _ _ _ ↦ rfl

theorem test_inverts : Inverts .test := fun value _ ↦
  (Pac.testStrip_or (Pac.testStrip value) _).trans (Pac.test_lawful.strip_strip value .ia)

/-- The slot is behind the header: the method is hooked, and can be hooked again. -/
theorem commits_exact_sample :
    let m := classMemory 10 (Pac.testSign 0x4000 .ia (Pac.test.blend 0x10050 7))
    let w := (World.fresh m fun _ ↦ .zero).prepared everywhere 0x10000 0 0
      (none, planOf .test m 0x10000 0)
    ∃ w' written, step .test w (.commit everywhere storeWord 0 0x5000) = some (w', some written) ∧
      written.address = 0x10050 ∧ written.outcome = .complete ∧
      PreparedAgain .test w'.memory ⟨m, everywhere, 0x10000, 0⟩ 0x5000 0x10050 := by
  intro m w
  have hprepare : swiftPrepareSlot .test everywhere m 0x10000 0 .zero =
      some (none, planOf .test m 0x10000 0) := by decide +kernel
  have hstart : Reached .test (.fresh m fun _ ↦ .zero) := .start fun _ ↦ rfl
  have hreach : Reached .test w := by
    refine hstart.next (show Op.Sound _ (.prepare everywhere 0x10000 0 0) from everywhere_sound _ _)
      (show step .test _ _ = some (w, none) from ?_)
    rw [step, World.fresh, hprepare]
    rfl
  obtain ⟨w', write, hstep, -, hwrite⟩ := @commits_exact .test w hreach
    (.commit everywhere storeWord 0 0x5000) ⟨everywhere_sound _ _, storeWord_stores⟩
  have hsome : (step .test w (.commit everywhere storeWord 0 0x5000)).map (·.2) =
      some (some ⟨0x10050, Pac.testSign 0x5000 .ia (Pac.test.blend 0x10050 7), .complete⟩) := by
    decide +kernel
  rw [hstep] at hsome
  cases hsome
  obtain ⟨_, _, _, _, o, hop, horigin, -, -, hagain⟩ := hwrite _ rfl
  cases hop
  cases horigin
  refine ⟨w', _, hstep, rfl, rfl, hagain test_inverts rfl ?_ ⟨rfl, rfl, rfl, rfl, rfl, rfl⟩⟩
  constructor <;> decide +kernel

/-- A table that begins inside of the header: the slot is the word that says that the class is one
of Swift, and with the replacement in it the class is none. -/
theorem self_slot_refused :
    let m := classMemory 4 metadataIsSwiftBit
    Inverts .plain ∧ everywhere.Sound m ∧ Stores storeWord ∧
    ∃ plan result, swiftPrepareSlot .plain everywhere m 0x10000 0 .zero = some (none, plan) ∧
      swiftCommitSlot .plain everywhere m storeWord plan 0x5000 = some result ∧
      result.error = none ∧ result.write = some ⟨0x10020, 0x5000, .complete⟩ ∧
      swiftPrepareSlot .plain everywhere result.memory 0x10000 0 .zero =
        some (some .notSwift, .zero) := by
  intro m
  refine ⟨fun _ _ ↦ rfl, everywhere_sound _ _, storeWord_stores, planOf .plain m 0x10000 0, ?_⟩
  have hprepare : swiftPrepareSlot .plain everywhere m 0x10000 0 .zero =
      some (none, planOf .plain m 0x10000 0) := by decide +kernel
  obtain ⟨result, hcommit, hresult⟩ := @swiftCommitSlot_spec .plain everywhere m
    (everywhere_sound 4 metadataIsSwiftBit) storeWord (planOf .plain m 0x10000 0) 0x5000
  have hsome :
      (swiftCommitSlot .plain everywhere m storeWord (planOf .plain m 0x10000 0) 0x5000).map
      (fun r ↦ (r.error, r.write)) =
        some (none, some ⟨0x10020, 0x5000, .complete⟩) := by decide +kernel
  rw [hcommit] at hsome
  simp only [Option.map_some, Option.some.injEq, Prod.mk.injEq] at hsome
  rcases hresult with ⟨herror, -⟩ | ⟨-, -, -, -, hmemory⟩
  · exact absurd hsome.1 herror
  · refine ⟨result, hprepare, hcommit, hsome.1, hsome.2, ?_⟩
    rw [hmemory]
    decide +kernel

end HookKit.Swift
