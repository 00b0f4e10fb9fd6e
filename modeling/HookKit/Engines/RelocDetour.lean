import HookKit.Engines.Reloc

/-!
# The detour an inline hook prepares

What the page and the planned patch contain after a preparation that succeeds: the entry will jump
to the replacement, at once or by way of the page, and the body goes on where the patch ends.

* `Detour` — what a preparation has to achieve.
* `PageSeams.OwnMemory` — the allocator hands out memory of its own, and sealing writes nothing.
* `relocPrepare_detour` — a preparation achieves it, for replacements that are code addresses.
-/

set_option autoImplicit false

namespace HookKit

open Arm64

variable {ε : Type}

/-! ## Words in memory -/

theorem length_bytesOfWords (ws : List Word) : (bytesOfWords ws).length = 4 * ws.length := by
  induction ws with
  | nil => rfl
  | cons w ws ih =>
    rw [bytesOfWords, List.flatMap_cons, List.length_append, List.length_cons]
    rw [bytesOfWords] at ih
    rw [ih]
    simp only [List.length_cons, List.length_nil]
    omega

theorem bytesOfWords_getElem? {ws : List Word} {i k : Nat} {w : Word} (hw : ws[i]? = some w)
    (hk : k < 4) : (bytesOfWords ws)[4 * i + k]? = some (byteOf w k) := by
  induction ws generalizing i with
  | nil => cases hw
  | cons w' ws ih =>
    rw [bytesOfWords, List.flatMap_cons]
    cases i with
    | zero =>
      cases hw
      rw [Nat.mul_zero, Nat.zero_add, List.getElem?_append_left hk]
      match k, hk with
      | 0, _ => rfl
      | 1, _ => rfl
      | 2, _ => rfl
      | 3, _ => rfl
    | succ i =>
      rw [List.getElem?_append_right (by show 4 ≤ _; omega)]
      show (bytesOfWords ws)[4 * (i + 1) + k - 4]? = _
      rw [show 4 * (i + 1) + k - 4 = 4 * i + k by omega]
      exact ih hw

theorem wordsOfBytes_bytesOfWords (ws : List Word) : wordsOfBytes (bytesOfWords ws) = ws := by
  induction ws with
  | nil => rfl
  | cons w ws ih =>
    rw [bytesOfWords, List.flatMap_cons]
    show _ :: wordsOfBytes (bytesOfWords ws) = _
    rw [ih, byteOf_append]

namespace Machine

variable (m : Machine ε)

/-- A store reaches no further than its bytes. -/
theorem store_other {a x : Addr} {bytes : List Byte} (h : bytes.length ≤ (x - a).toNat) :
    (m.store a bytes).mem x = m.mem x := by
  rw [store]
  dsimp only
  rw [List.getElem?_eq_none h]
  rfl

theorem store_holds (a : Addr) {ws : List Word} (h : 4 * ws.length ≤ 2 ^ 64) :
    (m.store a (bytesOfWords ws)).text.Holds a ws := by
  intro i hi k hk
  have hoff : (a + BitVec.ofNat 64 (4 * i + k) - a).toNat = 4 * i + k := by
    rw [show a + BitVec.ofNat 64 (4 * i + k) - a = BitVec.ofNat 64 (4 * i + k) by bv_omega,
      BitVec.toNat_ofNat]
    omega
  rw [text, store]
  dsimp only
  rw [hoff, bytesOfWords_getElem? (List.getElem?_eq_getElem hi) hk]
  rfl

/-- A store behind a block leaves the block alone. -/
theorem store_keeps {base a : Addr} {ws : List Word} {bytes : List Byte}
    (h : m.text.Holds base ws)
    (hapart : ∀ i, i < 4 * ws.length → bytes.length ≤ (base + BitVec.ofNat 64 i - a).toNat) :
    (m.store a bytes).text.Holds base ws := by
  intro i hi k hk
  rw [text, store_other m (hapart (4 * i + k) (by omega))]
  exact h i hi k hk

end Machine

/-! ## What has to be achieved -/

/-- The preparation of `plan` that took the process from `m` to `m'` is a detour from `target` to
`replacement`. -/
structure Detour (host : Host ε) (target replacement : Addr) (plan : RelocPlan)
    (m m' : Machine ε) : Prop where
  patchSize : plan.patchSize = 4 ∨ plan.patchSize = 16
  /-- The patch jumps to the replacement, or to a thunk on the page that does. -/
  patch : ∃ words, plan.patch = bytesOfWords words ∧ 4 * words.length = plan.patchSize ∧
    (decodeJump target words = some replacement ∨
      decodeJump target words = some plan.trampoline ∧
        ∃ thunk, 4 * thunk.length ≤ relocThunkBytes ∧ m'.text.Holds plan.trampoline thunk ∧
          decodeJump plan.trampoline thunk = some replacement)
  /-- The body is the relocated window and a jump behind the patch, and lies between the thunk and
  the end of the page. -/
  body : ∃ relocated back, relocate (wordsOfBytes (m.readBytes target plan.patchSize)) target
      relocBodyBytes = some relocated ∧
    m'.text.Holds plan.originalEntry (relocated ++ back) ∧
    decodeJump (plan.originalEntry + BitVec.ofNat 64 (4 * relocated.length)) back =
      some (target + BitVec.ofNat 64 plan.patchSize) ∧
    relocThunkBytes + 4 * (relocated ++ back).length ≤ relocPageBytes
  page : plan.originalEntry.toNat = plan.trampoline.toNat + relocThunkBytes ∧
    plan.trampoline.toNat + relocPageBytes < 2 ^ 64
  original : (relocDescribeContinuation host plan).address =
    (host.makeCallable plan.originalEntry).toNat
  /-- Nothing is written where the patch will go. -/
  untouched : m'.readBytes target plan.patchSize = m.readBytes target plan.patchSize

/-- The allocator hands out memory of its own: not the entry it is asked to stay near, and without
writing anywhere else.  Sealing changes no byte. -/
structure PageSeams.OwnMemory (seams : PageSeams ε) : Prop where
  apart : ∀ alloc, seams.alloc = some alloc → ∀ near m, (alloc relocPageBytes near m).1.1 ≠ 0 →
    ∀ a, (a - near).toNat < relocMaxPatch →
      relocPageBytes ≤ (a - (alloc relocPageBytes near m).1.1).toNat
  alloc : ∀ alloc, seams.alloc = some alloc → ∀ near m a, (a - near).toNat < relocMaxPatch →
    (alloc relocPageBytes near m).2.mem a = m.mem a
  sealed : ∀ sealPage, seams.sealPage = some sealPage → ∀ page size m,
    (sealPage page size m).2.mem = m.mem

/-! ## Building the page -/

theorem readBytes_congr {m m' : Machine ε} {a : Addr} {count : Nat}
    (h : ∀ x, (x - a).toNat < count → m'.mem x = m.mem x) (hcount : count ≤ 2 ^ 64) :
    m'.readBytes a count = m.readBytes a count := by
  refine List.map_congr_left fun i hi ↦ h _ ?_
  have hlt := List.mem_range.mp hi
  rw [show a + BitVec.ofNat 64 i - a = BitVec.ofNat 64 i by bv_omega, BitVec.toNat_ofNat]
  omega

theorem pageUsable_spec {page : Addr} {mapping : ArtifactMapping}
    (h : pageUsable page mapping = true) :
    page ≠ 0 ∧ page &&& 3#64 = 0#64 ∧ page.toNat + relocPageBytes < 2 ^ 64 := by
  simp only [pageUsable, Bool.and_eq_true, decide_eq_true_eq] at h
  obtain ⟨⟨⟨⟨⟨⟨⟨hpage, haligned⟩, -⟩, -⟩, hbase⟩, hsize⟩, hfits⟩, hinside⟩ := h
  refine ⟨hpage, haligned, ?_⟩
  rw [show BitVec.ofNat 64 relocPageBytes = 128#64 from rfl] at hsize hinside
  rw [show BitVec.allOnes 64 = 0xFFFFFFFFFFFFFFFF#64 from rfl] at hfits
  rw [show relocPageBytes = 128 from rfl]
  bv_omega

/-- The chosen patch is a branch that fits, to the thunk or to the replacement. -/
theorem choosePatch_hook (target replacement thunk : Addr) :
    (choosePatch target replacement thunk 0).1 =
        branchSize target (choosePatch target replacement thunk 0).2.1 ∧
      ((choosePatch target replacement thunk 0).2.1 = thunk ∨
        (choosePatch target replacement thunk 0).2.1 = replacement) := by
  by_cases h : branchSize target thunk = 4
  · rw [choosePatch, if_neg (by decide), if_pos h]
    exact ⟨h.symm, .inl rfl⟩
  · rw [choosePatch, if_neg (by decide), if_neg h]
    exact ⟨rfl, .inr rfl⟩

theorem relocBody_spec {window words : List Word} {target bodyAddr : Addr} {patchSize : Nat}
    (h : relocBody window target bodyAddr patchSize = some words) :
    ∃ relocated, relocate window target relocBodyBytes = some relocated ∧
      words = relocated ++ emitBranch (bodyAddr + BitVec.ofNat 64 (4 * relocated.length))
        (target + BitVec.ofNat 64 patchSize) ∧ 4 * words.length ≤ relocBodyBytes := by
  rw [relocBody] at h
  split at h
  · cases h
  · rename_i relocated hrelocate
    dsimp only at h
    split at h
    · cases h
    · rename_i hfits
      cases h
      refine ⟨relocated, hrelocate, rfl, ?_⟩
      rw [List.length_append]
      omega

theorem relocReleaseAndFail_status {seams : PageSeams ε} {page : Addr} {status : RelocStatus}
    {plan plan' : RelocPlan} {p p' : Process ε} (hstatus : status ≠ .ok)
    (h : relocReleaseAndFail seams page status plan p = (.ok, plan', p')) : False := by
  cases h
  exact hstatus rfl

/-- A page that is built holds the thunk in front of the body. -/
theorem store_page_holds (m : Machine ε) (page : Addr) {thunk words : List Word}
    (hthunk : 4 * thunk.length ≤ relocThunkBytes) (hwords : 4 * words.length ≤ relocBodyBytes) :
    let body := page + BitVec.ofNat 64 relocThunkBytes
    let m' := (m.store page (bytesOfWords thunk)).store body (bytesOfWords words)
    m'.text.Holds page thunk ∧ m'.text.Holds body words ∧
      ∀ a, relocPageBytes ≤ (a - page).toNat → m'.mem a = m.mem a := by
  rw [show relocThunkBytes = 16 from rfl] at hthunk ⊢
  rw [show relocBodyBytes = 112 from rfl] at hwords
  rw [show relocPageBytes = 128 from rfl]
  refine ⟨Machine.store_keeps _ (Machine.store_holds m page (by omega)) fun i hi ↦ ?_,
    Machine.store_holds _ _ (by omega), fun a ha ↦ ?_⟩
  · rw [length_bytesOfWords]
    bv_omega
  · rw [Machine.store_other, Machine.store_other]
    · rw [length_bytesOfWords]
      omega
    · rw [length_bytesOfWords]
      bv_omega

theorem add_aligned {a : Addr} {n : Nat} (ha : a &&& 3#64 = 0#64) (hn : n % 4 = 0) :
    (a + BitVec.ofNat 64 n) &&& 3#64 = 0#64 := by
  rw [and_three] at ha ⊢
  rw [BitVec.toNat_add, BitVec.toNat_ofNat]
  omega

/-- What a page that is built and sealed has come from. -/
structure Built (target replacement page : Addr)
    (sealPage : Addr → Nat → Machine ε → Bool × Machine ε)
    (plan : RelocPlan) (p p' : Process ε) : Prop where
  trampoline : plan.trampoline = page
  originalEntry : plan.originalEntry = page + BitVec.ofNat 64 relocThunkBytes
  captured : plan.captured = true
  patchSize : plan.patchSize = (choosePatch target replacement page 0).1
  patch : plan.patch = bytesOfWords (emitBranch target (choosePatch target replacement page 0).2.1)
  thunk : 4 * (emitBranch page replacement).length ≤ relocThunkBytes
  body : ∃ words, relocBody (wordsOfBytes (p.machine.readBytes target plan.patchSize)) target
      plan.originalEntry plan.patchSize = some words ∧
    p'.machine.mem = (sealPage page relocPageBytes
      ((p.machine.store page (bytesOfWords (emitBranch page replacement))).store plan.originalEntry
        (bytesOfWords words))).2.mem

theorem relocBuild_spec {target replacement page : Addr} {expected : Option (List Byte)}
    {sealPage : Addr → Nat → Machine ε → Bool × Machine ε} {seams : PageSeams ε}
    {mapping : ArtifactMapping} {plan : RelocPlan} {p p' : Process ε}
    (h : relocBuild target replacement 0 expected sealPage seams page mapping p = (.ok, plan, p')) :
    Built target replacement page sealPage plan p p' := by
  have fails {status : RelocStatus} {plan₀ : RelocPlan} {p₀ : Process ε} (hstatus : status ≠ .ok)
      (h : relocReleaseAndFail seams page status plan₀ p₀ = (.ok, plan, p')) :
      Built target replacement page sealPage plan p p' :=
    (relocReleaseAndFail_status hstatus h).elim
  rw [relocBuild] at h
  dsimp only at h
  iterate 5
    split at h
    · exact fails (by decide) h
  split at h
  · exact fails (by decide) h
  · rename_i words hwords
    rw [if_pos rfl] at h
    split at h
    · exact fails (by decide) h
    · rename_i hthunk
      push Not at hthunk
      split at h
      · exact fails (by decide) h
      · rename_i p₁ hsealed
        rw [if_pos rfl] at h
        split at h
        · exact fails (by decide) h
        · cases h
          refine ⟨rfl, rfl, rfl, rfl, rfl, (hthunk rfl).2, words, hwords, ?_⟩
          have := congrArg (fun r ↦ r.2.machine.mem) hsealed
          exact this.symm

theorem allocPage_answer (alloc : Nat → Addr → Machine ε → (Addr × ArtifactMapping) × Machine ε)
    (near : Addr) (p : Process ε) :
    (PageSeams.allocPage alloc near p).1 = (alloc relocPageBytes near p.machine).1 ∧
      (PageSeams.allocPage alloc near p).2.machine = (alloc relocPageBytes near p.machine).2 := by
  rw [PageSeams.allocPage]
  refine ⟨rfl, ?_⟩
  dsimp only
  split <;> rfl

/-- **A preparation that succeeds is a detour**, for a replacement that is a code address. -/
theorem relocPrepare_detour (host : Host ε) {target replacement : Addr}
    {expected : Option (List Byte)}
    {seams : PageSeams ε} (hseams : seams.OwnMemory) {p p' : Process ε} {plan : RelocPlan}
    (hreplacement : replacement &&& 3#64 = 0#64)
    (h : relocPrepare target replacement expected seams p = (.ok, plan, p')) :
    Detour host target replacement plan p.machine p'.machine := by
  rw [relocPrepare, relocPrepareWith] at h
  split at h
  · rename_i alloc sealPage halloc hseal
    split at h
    · cases h
    split at h
    · cases h
    split at h
    · cases h
    rename_i htarget
    rw [not_not] at htarget
    obtain ⟨hanswer, hmachine⟩ := allocPage_answer alloc target p
    have hapart := hseams.apart alloc halloc target p.machine
    have hkept := hseams.alloc alloc halloc target p.machine
    rw [← hanswer] at hapart
    rw [← hmachine] at hkept
    generalize PageSeams.allocPage alloc target p = allocated at h hapart hkept
    obtain ⟨⟨page, mapping⟩, p₁⟩ := allocated
    dsimp only at h hapart hkept
    split at h
    · exact (relocReleaseAndFail_status (by decide) h).elim
    · rename_i husable
      obtain ⟨hpage, haligned, hfits⟩ := pageUsable_spec (by simpa using husable)
      have hbuilt := relocBuild_spec h
      obtain ⟨words, hbody, hmem⟩ := hbuilt.body
      obtain ⟨relocated, hrelocate, hwords, hlength⟩ := relocBody_spec hbody
      obtain ⟨hsize, hdest⟩ := choosePatch_hook target replacement page
      rw [hseams.sealed sealPage hseal, hbuilt.originalEntry] at hmem
      rw [hbuilt.originalEntry] at hwords
      rw [← hbuilt.patchSize] at hsize
      obtain ⟨hthunk, hholds, hother⟩ := store_page_holds p₁.machine page hbuilt.thunk hlength
      have htext : p'.machine.text = ((p₁.machine.store page
          (bytesOfWords (emitBranch page replacement))).store
            (page + BitVec.ofNat 64 relocThunkBytes) (bytesOfWords words)).text := by
        funext a
        show some (p'.machine.mem a) = _
        rw [hmem]
        rfl
      rw [← htext] at hthunk hholds
      have hpatchSize : plan.patchSize = 4 ∨ plan.patchSize = 16 := hsize ▸ branchSize_cases _ _
      have hwindow : plan.patchSize ≤ relocMaxPatch := by
        rw [show relocMaxPatch = 16 from rfl]
        omega
      -- neither the allocator nor the page touches the entry
      have hread₁ : p₁.machine.readBytes target plan.patchSize =
          p.machine.readBytes target plan.patchSize :=
        readBytes_congr (fun x hx ↦ hkept x (by omega)) (by omega)
      have hread : p'.machine.readBytes target plan.patchSize =
          p₁.machine.readBytes target plan.patchSize := by
        refine readBytes_congr (fun x hx ↦ ?_) (by omega)
        rw [hmem]
        exact hother x (hapart hpage x (by omega))
      have hpagePlus : (page + BitVec.ofNat 64 relocThunkBytes).toNat =
          page.toNat + relocThunkBytes := by
        rw [show relocPageBytes = 128 from rfl] at hfits
        rw [show relocThunkBytes = 16 from rfl]
        bv_omega
      have hentry : plan.originalEntry &&& 3#64 = 0#64 := by
        rw [hbuilt.originalEntry]
        exact add_aligned haligned (by decide)
      refine ⟨hpatchSize, ⟨_, hbuilt.patch, ?_, ?_⟩, ⟨relocated,
        emitBranch (page + BitVec.ofNat 64 relocThunkBytes + BitVec.ofNat 64 (4 * relocated.length))
          (target + BitVec.ofNat 64 plan.patchSize), ?_, ?_, ?_, ?_⟩, ⟨?_, ?_⟩, ?_,
        hread.trans hread₁⟩
      · rw [hsize, length_emitBranch]
      · rcases hdest with hpagedest | hreplacementdest
        · rw [hpagedest, hbuilt.trampoline]
          exact .inr ⟨decodeJump_emitBranch htarget haligned, _, hbuilt.thunk, hthunk,
            decodeJump_emitBranch haligned hreplacement⟩
        · rw [hreplacementdest]
          exact .inl (decodeJump_emitBranch htarget hreplacement)
      · rw [← hread₁]
        exact hrelocate
      · rw [hbuilt.originalEntry, ← hwords]
        exact hholds
      · rw [hbuilt.originalEntry]
        refine decodeJump_emitBranch (add_aligned (add_aligned haligned (by decide)) (by omega))
          (add_aligned htarget (by omega))
      · rw [hwords] at hlength
        exact Nat.add_le_add_left hlength relocThunkBytes
      · rw [hbuilt.originalEntry, hbuilt.trampoline, hpagePlus]
      · rw [hbuilt.trampoline]
        exact hfits
      · rw [relocDescribeContinuation, hbuilt.captured]
        rfl
  · cases h

/-! ### A process to try it in -/

/-- A memory full of NOPs, and an allocator that always hands out the same page. -/
def nopMachine : Machine Unit where
  mem a := byteOf a64Nop (a.toNat % 4)
  nextId := 1
  env := ()

def fixedPage (page : Addr) : PageSeams Unit where
  alloc := some fun _ near m ↦
    ((if (page - near).toNat < 16 ∨ (near - page).toNat < relocPageBytes then 0 else page,
      ⟨0, .anonymous, page, BitVec.ofNat 64 relocPageBytes, ⟨true, true, false⟩⟩), m)
  sealPage := some fun _ _ m ↦ (true, m)
  freePage := some fun _ _ m ↦ m

def plainHost : Host Unit where
  stripCode := id
  makeCallable := id
  malloc m := (true, m)
  imageScope _ _ := none

theorem fixedPage_ownMemory (page : Addr) : (fixedPage page).OwnMemory where
  apart alloc halloc near m hpage a ha := by
    cases halloc
    dsimp only at hpage ⊢
    split at hpage
    · exact absurd rfl hpage
    · rename_i hfar
      rw [if_neg hfar]
      rw [show relocMaxPatch = 16 from rfl] at ha
      rw [show relocPageBytes = 128 from rfl] at hfar ⊢
      bv_omega
  alloc alloc halloc near m a _ := by
    cases halloc
    rfl
  sealed sealPage hseal page size m := by
    cases hseal
    rfl

/-- A page close to the entry, and a replacement far away. -/
theorem relocPrepare_detour_far :
    ∃ plan p', relocPrepare 0x1000 0x7000000000 none (fixedPage 0x4000) ⟨nopMachine, []⟩ =
        (.ok, plan, p') ∧
      Detour plainHost 0x1000 0x7000000000 plan nopMachine p'.machine := by
  have hstatus : (relocPrepare 0x1000 0x7000000000 none (fixedPage 0x4000)
      ⟨nopMachine, []⟩).1 = .ok := by decide +kernel
  exact ⟨_, _, Prod.ext hstatus rfl, relocPrepare_detour plainHost (fixedPage_ownMemory 0x4000)
    (by decide) (Prod.ext hstatus rfl)⟩

/-- **A replacement that is not a code address is missed**: where a B reaches it, the two low bits
of the distance are lost. -/
theorem relocPrepare_not_always_detour : ¬ ∀ (target replacement page : Addr) (p p' : Process Unit)
    (plan : RelocPlan), relocPrepare target replacement none (fixedPage page) p = (.ok, plan, p') →
      Detour plainHost target replacement plan p.machine p'.machine := by
  intro hall
  have hstatus :
      (relocPrepare 0x1000 0x5002 none (fixedPage 0x40000000) ⟨nopMachine, []⟩).1 = .ok := by
    decide +kernel
  have hpatch : wordsOfBytes (relocPrepare 0x1000 0x5002 none (fixedPage 0x40000000)
      ⟨nopMachine, []⟩).2.1.patch = [0x14001000#32] := by decide +kernel
  have hpage : (relocPrepare 0x1000 0x5002 none (fixedPage 0x40000000)
      ⟨nopMachine, []⟩).2.1.trampoline = 0x40000000 := by decide +kernel
  have hall' := hall 0x1000 0x5002 0x40000000 ⟨nopMachine, []⟩
  generalize relocPrepare 0x1000 0x5002 none (fixedPage 0x40000000) ⟨nopMachine, []⟩ = prepared
    at hstatus hpatch hpage hall'
  obtain ⟨status, plan, p'⟩ := prepared
  obtain rfl : status = .ok := hstatus
  dsimp only at hpatch hpage
  obtain ⟨words, hwords, -, hjump⟩ := (hall' p' plan rfl).patch
  rw [hwords, wordsOfBytes_bytesOfWords] at hpatch
  rw [hpatch, hpage] at hjump
  rcases hjump with hjump | ⟨hjump, -⟩
  · exact absurd hjump (by decide)
  · exact absurd hjump (by decide)

end HookKit
