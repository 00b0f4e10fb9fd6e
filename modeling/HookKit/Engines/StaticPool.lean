import HookKit.Core.Base
import HookKit.Lib.Slots
import Mathlib.Data.Nat.Dist

/-!
# The static pool

`HKStaticPool.c`: the executable slots that exist when the process starts, handed out and taken
back.

* `Pool`, `init`, `claim`, `release`, `freeCount`, `contains` — the functions of the file.  The
  checks of `init` are the fields a pool carries.
* `claim_cases`, `release_cases` — what the two operations can do.
* `Session` — a pool and the slots its callers hold.
* `Session.Tracks.freeCount_add_length` — a slot is either free or held.
* `Session.Sound` — what they may rely on, in any state they come to.
* `init_sound_iff` — they may if and only if the region ends below the end of the address space;
  `init` accepts regions that wrap around it.
-/

set_option autoImplicit false

namespace HookKit.StaticPool

/-- `uintptr_t` and `size_t`. -/
abbrev Word := BitVec 64

/-- `HK_STATIC_POOL_MAX_SLOTS`. -/
def maxSlots : Nat := 64

/-- `hk_static_pool_t`, after a successful `hk_static_pool_init`. -/
structure Pool where
  base : Word
  slotSize : Word
  slotCount : Nat
  used : BitVec 64
  base_ne : base ≠ 0
  slotSize_pos : 0 < slotSize.toNat
  slotCount_pos : 0 < slotCount
  slotCount_le : slotCount ≤ maxSlots
  size_le : slotSize.toNat * slotCount ≤ sizeMax

/-- `hk_static_pool_init`. -/
def init (base slotSize : Word) (slotCount : Nat) : Option Pool :=
  if h : base = 0 ∨ slotSize = 0 ∨ slotCount = 0 ∨ slotCount > maxSlots then none
  else if hsize : slotSize.toNat > sizeMax / slotCount then none
  else some
    { base := base
      slotSize := slotSize
      slotCount := slotCount
      used := 0
      base_ne := fun hbase ↦ h (.inl hbase)
      slotSize_pos := Nat.pos_of_ne_zero fun hzero ↦
        h (.inr (.inl (BitVec.eq_of_toNat_eq hzero)))
      slotCount_pos := Nat.pos_of_ne_zero fun hzero ↦ h (.inr (.inr (.inl hzero)))
      slotCount_le := Nat.le_of_not_lt fun hmany ↦ h (.inr (.inr (.inr hmany)))
      size_le := (Nat.le_div_iff_mul_le
        (Nat.pos_of_ne_zero fun hzero ↦ h (.inr (.inr (.inl hzero))))).mp (Nat.le_of_not_lt hsize) }

namespace Pool

/-- The address of a slot. -/
def slot (pool : Pool) (i : Nat) : Word := pool.base + BitVec.ofNat 64 i * pool.slotSize

/-- How far an address lies from the one a caller wants to be close to. -/
def distance (addr near : Word) : Word := if addr > near then addr - near else near - addr

/-- One pass of the loop of `hk_static_pool_claim` over `best` and `best_distance`. -/
def nearer (pool : Pool) (near : Word) (best : Nat × Word) (i : Nat) : Nat × Word :=
  if pool.used &&& (1#64 <<< i) ≠ 0#64 then best
  else if best.1 = pool.slotCount ∨ distance (pool.slot i) near < best.2 then
    (i, distance (pool.slot i) near)
  else best

/-- `hk_static_pool_claim`: the slot, or 0, and the pool after it. -/
def claim (pool : Pool) (size near : Word) : Word × Pool :=
  if size = 0 ∨ size > pool.slotSize then (0, pool)
  else
    let best := ((List.range pool.slotCount).foldl (pool.nearer near) (pool.slotCount, 0)).1
    if best = pool.slotCount then (0, pool)
    else (pool.slot best, { pool with used := pool.used ||| 1#64 <<< best })

/-- `hk_static_pool_release`. -/
def release (pool : Pool) (slot : Word) : Pool :=
  if slot < pool.base then pool
  else
    let offset := slot - pool.base
    if offset % pool.slotSize ≠ 0 then pool
    else
      let index := (offset / pool.slotSize).toNat
      if index ≥ pool.slotCount then pool
      else { pool with used := pool.used &&& ~~~(1#64 <<< index) }

/-- `hk_static_pool_free_count`. -/
def freeCount (pool : Pool) : Nat :=
  (List.range pool.slotCount).foldl
    (fun n i ↦ if pool.used &&& (1#64 <<< i) = 0#64 then n + 1 else n) 0

/-- `hk_static_pool_contains`. -/
def contains (pool : Pool) (addr : Word) : Bool :=
  if pool.base = 0 then false
  else decide (addr ≥ pool.base) &&
    decide (addr < pool.base + pool.slotSize * BitVec.ofNat 64 pool.slotCount)

/-! ## The bits -/

variable {pool : Pool}

/-- The slot is handed out. -/
def Taken (pool : Pool) (i : Nat) : Prop := pool.used.getLsbD i = true

instance (pool : Pool) (i : Nat) : Decidable (pool.Taken i) :=
    inferInstanceAs (Decidable (_ = true))

/-- The pool with the bit of a slot set. -/
def take (pool : Pool) (i : Nat) : Pool := { pool with used := pool.used ||| 1#64 <<< i }

/-- The pool with the bit of a slot cleared. -/
def free (pool : Pool) (i : Nat) : Pool := { pool with used := pool.used &&& ~~~(1#64 <<< i) }

theorem and_bit_ne_zero {i : Nat} (hi : i < 64) :
    pool.used &&& (1#64 <<< i) ≠ 0#64 ↔ pool.Taken i := by
  rw [← BitVec.twoPow_eq, BitVec.and_twoPow, Taken]
  cases hbit : pool.used.getLsbD i with
  | false => simp
  | true =>
    refine iff_of_true ?_ rfl
    rw [if_pos rfl]
    intro hzero
    have := congrArg (·.getLsbD i) hzero
    simp [hi] at this

theorem taken_take {i j : Nat} (hi : i < 64) : (pool.take i).Taken j ↔ pool.Taken j ∨ j = i := by
  rw [Taken, Taken, take, ← BitVec.twoPow_eq, BitVec.getLsbD_or, BitVec.getLsbD_twoPow]
  simp only [hi, decide_true, Bool.true_and, Bool.or_eq_true, decide_eq_true_eq]
  exact or_congr_right eq_comm

theorem taken_free {i j : Nat} (hj : j < 64) : (pool.free i).Taken j ↔ pool.Taken j ∧ j ≠ i := by
  rw [Taken, Taken, free, ← BitVec.twoPow_eq, BitVec.getLsbD_and, BitVec.getLsbD_not,
    BitVec.getLsbD_twoPow]
  simp only [hj, decide_true, Bool.true_and, Bool.and_eq_true, Bool.not_eq_true',
    Bool.and_eq_false_iff, decide_eq_false_iff_not]
  refine and_congr_right fun _ ↦ ⟨fun h heq ↦ ?_, fun hne ↦ .inr (Ne.symm hne)⟩
  subst heq
  rcases h with h | h
  · exact h hj
  · exact h rfl

/-- Clearing a bit that is clear. -/
theorem free_eq_self {i : Nat} (h : ¬ pool.Taken i) : pool.free i = pool := by
  have hused : pool.used &&& ~~~(1#64 <<< i) = pool.used := by
    refine BitVec.eq_of_getLsbD_eq fun j hj ↦ ?_
    rw [← BitVec.twoPow_eq, BitVec.getLsbD_and, BitVec.getLsbD_not, BitVec.getLsbD_twoPow]
    by_cases heq : i = j
    · subst heq
      rw [Taken, Bool.not_eq_true] at h
      rw [h, Bool.false_and]
    · simp [heq, hj]
  rw [free, hused]

/-- The counting loop counts. -/
theorem freeCount_eq (pool : Pool) :
    pool.freeCount = (List.range pool.slotCount).countP fun i ↦ ¬ pool.Taken i := by
  have hloop (l : List Nat) (hl : ∀ i ∈ l, i < 64) (n : Nat) :
      l.foldl (fun n i ↦ if pool.used &&& (1#64 <<< i) = 0#64 then n + 1 else n) n =
        n + l.countP fun i ↦ ¬ pool.Taken i := by
    induction l generalizing n with
    | nil => rfl
    | cons i l ih =>
      have hbit := not_congr (@and_bit_ne_zero pool i (hl i List.mem_cons_self))
      rw [not_not] at hbit
      rw [List.foldl_cons, ih fun j hj ↦ hl j (List.mem_cons_of_mem i hj), List.countP_cons]
      simp only [hbit, decide_eq_true_eq]
      split <;> omega
  rw [freeCount, hloop _ fun i hi ↦ Nat.lt_of_lt_of_le (List.mem_range.mp hi) pool.slotCount_le,
    Nat.zero_add]

theorem lt_of_lt_slotCount {i : Nat} (h : i < pool.slotCount) : i < 64 :=
  Nat.lt_of_lt_of_le h pool.slotCount_le

/-! ## The two operations -/

/-- The distance of a slot. -/
def slotDistance (pool : Pool) (near : Word) (i : Nat) : Nat := (distance (pool.slot i) near).toNat

/-- The slots that a claim may hand out. -/
def Free (pool : Pool) (i : Nat) : Prop := ¬ pool.Taken i

/-- The loop over the first slots: none of them is free, or the best so far is the first of the
nearest. -/
theorem search_cases (pool : Pool) (near : Word) {bound : Nat} (hbound : bound ≤ pool.slotCount) :
    let best := (List.range bound).foldl (pool.nearer near) (pool.slotCount, 0)
    (best.1 = pool.slotCount ∧ ∀ j < bound, ¬ pool.Free j) ∨
      (Slots.Least pool.Free (pool.slotDistance near) bound best.1 ∧
        best.2.toNat = pool.slotDistance near best.1) := by
  induction bound with
  | zero => exact .inl ⟨rfl, fun j hj ↦ absurd hj (Nat.not_lt_zero j)⟩
  | succ bound ih =>
    have ih := ih (Nat.le_of_succ_le hbound)
    dsimp only at ih ⊢
    rw [List.range_succ, List.foldl_append, List.foldl_cons, List.foldl_nil]
    generalize (List.range bound).foldl (pool.nearer near) (pool.slotCount, 0) = best at ih ⊢
    obtain ⟨index, bestDistance⟩ := best
    rw [nearer]
    by_cases htaken : pool.Taken bound
    · rw [if_pos ((and_bit_ne_zero (lt_of_lt_slotCount hbound)).mpr htaken)]
      rcases ih with ⟨hindex, hnone⟩ | ⟨hleast, hdistance⟩
      · refine .inl ⟨hindex, fun j hj ↦ ?_⟩
        rcases Nat.lt_succ_iff_lt_or_eq.mp hj with hlt | rfl
        · exact hnone j hlt
        · exact not_not.mpr htaken
      · exact .inr ⟨hleast.keep fun hfree ↦ absurd htaken hfree, hdistance⟩
    · rw [if_neg (by rwa [and_bit_ne_zero (lt_of_lt_slotCount hbound)])]
      rcases ih with ⟨hindex, hnone⟩ | ⟨hleast, hdistance⟩
      · rw [if_pos (.inl hindex)]
        exact .inr ⟨.first hnone htaken, rfl⟩
      · have hlt := hleast.lt
        dsimp only at hlt hdistance hleast
        by_cases hnear : distance (pool.slot bound) near < bestDistance
        · rw [if_pos (.inr hnear)]
          rw [BitVec.lt_def, hdistance] at hnear
          exact .inr ⟨hleast.replace htaken hnear, rfl⟩
        · rw [if_neg (not_or.mpr ⟨by omega, hnear⟩)]
          rw [BitVec.lt_def, hdistance, Nat.not_lt] at hnear
          exact .inr ⟨hleast.keep fun _ ↦ hnear, hdistance⟩

/-- What a caller has to ask for to get a slot. -/
def Fits (pool : Pool) (size : Word) : Prop := size ≠ 0 ∧ size ≤ pool.slotSize

/-- **What a claim can do.** -/
theorem claim_cases (pool : Pool) (size near : Word) :
    (pool.claim size near = (0, pool) ∧ (pool.Fits size → ∀ i < pool.slotCount, pool.Taken i)) ∨
      ∃ i, Slots.Least pool.Free (pool.slotDistance near) pool.slotCount i ∧ pool.Fits size ∧
        pool.claim size near = (pool.slot i, pool.take i) := by
  rw [claim]
  by_cases hsize : size = 0 ∨ size > pool.slotSize
  · rw [if_pos hsize]
    refine .inl ⟨rfl, fun hfits ↦ ?_⟩
    rcases hsize with hzero | hlarge
    · exact absurd hzero hfits.1
    · exact absurd hfits.2 (BitVec.not_le.mpr hlarge)
  rw [if_neg hsize]
  have hsearch := pool.search_cases near (Nat.le_refl _)
  dsimp only at hsearch ⊢
  generalize (List.range pool.slotCount).foldl (pool.nearer near) (pool.slotCount, 0) = best
    at hsearch ⊢
  rcases hsearch with ⟨hbest, hnone⟩ | ⟨hleast, -⟩
  · rw [if_pos hbest]
    exact .inl ⟨rfl, fun _ i hi ↦ not_not.mp (hnone i hi)⟩
  · have hlt := hleast.lt
    rw [if_neg (Nat.ne_of_lt hlt)]
    rw [not_or, BitVec.not_lt] at hsize
    exact .inr ⟨best.1, hleast, hsize, rfl⟩

/-! ## Regions that do not wrap -/

/-- The slots of the pool, over numbers that do not wrap. -/
def slots (pool : Pool) : Slots := ⟨pool.base.toNat, pool.slotSize.toNat, pool.slotCount,
  pool.slotSize_pos⟩

theorem base_le_start (pool : Pool) (i : Nat) : pool.base.toNat ≤ pool.slots.start i :=
    Nat.le_add_right _ _

/-- The region ends below the end of the address space. -/
def Ends (pool : Pool) : Prop := pool.slots.stop < 2 ^ 64

/-- The address of a slot, as the pool computes it. -/
theorem toNat_slot (h : pool.Ends) {i : Nat} (hi : i < pool.slotCount) :
    (pool.slot i).toNat = pool.slots.start i := by
  have hend : pool.base.toNat + i * pool.slotSize.toNat < 2 ^ 64 :=
    Nat.lt_trans (Slots.start_lt_stop (s := pool.slots) hi) h
  have hindex := lt_of_lt_slotCount hi
  rw [slot, BitVec.toNat_add, BitVec.toNat_mul, BitVec.toNat_ofNat,
    Nat.mod_eq_of_lt (by omega : i < 2 ^ 64),
    Nat.mod_eq_of_lt (by omega : i * pool.slotSize.toNat < 2 ^ 64), Nat.mod_eq_of_lt hend]
  rfl

theorem toNat_distance (addr near : Word) :
    (distance addr near).toNat = Nat.dist addr.toNat near.toNat := by
  rw [distance, Nat.dist]
  split
  · rename_i h
    bv_omega
  · rename_i h
    bv_omega

/-- **What a release can do**: nothing, unless a slot begins at the address. -/
theorem release_cases (pool : Pool) (a : Word) :
    (¬ pool.slots.IsStart a.toNat ∧ pool.release a = pool) ∨
      ∃ i < pool.slotCount, a.toNat = pool.slots.start i ∧ pool.release a = pool.free i := by
  rw [release]
  by_cases hbase : a < pool.base
  · rw [if_pos hbase]
    refine .inl ⟨fun hstart ↦ ?_, rfl⟩
    exact absurd (Slots.isStart_iff.mp hstart).1 (Nat.not_le.mpr hbase)
  rw [if_neg hbase]
  have hoffset : (a - pool.base).toNat = a.toNat - pool.base.toNat := by bv_omega
  have hmod : (a - pool.base) % pool.slotSize = 0 ↔
      (a.toNat - pool.base.toNat) % pool.slotSize.toNat = 0 := by
    rw [← BitVec.toNat_inj, BitVec.toNat_umod, hoffset]
    rfl
  have hindex : ((a - pool.base) / pool.slotSize).toNat =
      (a.toNat - pool.base.toNat) / pool.slotSize.toNat := by
    rw [BitVec.toNat_udiv, hoffset]
  have hstart := @Slots.isStart_iff pool.slots a.toNat
  dsimp only [slots] at hstart
  dsimp only
  by_cases hslot : (a - pool.base) % pool.slotSize = 0
  · rw [if_neg (not_not.mpr hslot), hindex]
    by_cases hcount : (a.toNat - pool.base.toNat) / pool.slotSize.toNat ≥ pool.slotCount
    · rw [if_pos hcount]
      exact .inl ⟨fun h ↦ absurd (hstart.mp h).2.2 (Nat.not_lt.mpr hcount), rfl⟩
    · rw [if_neg hcount]
      refine .inr ⟨_, Nat.lt_of_not_le hcount, ?_, rfl⟩
      rw [Slots.start, slots, Nat.div_mul_cancel (Nat.dvd_of_mod_eq_zero (hmod.mp hslot))]
      bv_omega
  · rw [if_pos hslot]
    exact .inl ⟨fun h ↦ hslot (hmod.mpr (hstart.mp h).2.1), rfl⟩

/-- The bound `hk_static_pool_contains` computes. -/
theorem toNat_stop (pool : Pool) :
    (pool.base + pool.slotSize * BitVec.ofNat 64 pool.slotCount).toNat =
      pool.slots.stop % 2 ^ 64 := by
  have hcount := pool.slotCount_le
  rw [maxSlots] at hcount
  rw [BitVec.toNat_add, BitVec.toNat_mul, BitVec.toNat_ofNat,
    Nat.mod_eq_of_lt (by omega : pool.slotCount < 2 ^ 64), Nat.add_mod_mod]
  rfl

/-- The test for an address of the region. -/
theorem contains_iff (h : pool.Ends) (a : Word) :
    pool.contains a = true ↔ pool.slots.base ≤ a.toNat ∧ a.toNat < pool.slots.stop := by
  rw [contains, if_neg pool.base_ne, Bool.and_eq_true, decide_eq_true_eq, decide_eq_true_eq,
    BitVec.lt_def, toNat_stop, Nat.mod_eq_of_lt h]
  rfl

/-- In a region that wraps, the bound lies below the base. -/
theorem contains_eq_false (h : ¬ pool.Ends) (a : Word) : pool.contains a = false := by
  have hsize := pool.size_le
  rw [sizeMax] at hsize
  rw [Ends, slots, Slots.stop] at h
  dsimp only at h
  have hstop := pool.toNat_stop
  rw [slots, Slots.stop] at hstop
  dsimp only at hstop
  rw [contains, if_neg pool.base_ne, Bool.and_eq_false_iff, decide_eq_false_iff_not,
    decide_eq_false_iff_not, BitVec.lt_def, ge_iff_le, BitVec.le_def, hstop]
  omega

end Pool

/-! ## Claims and releases -/

/-- A call. -/
inductive Op where
  | claim (size near : Word)
  | release (slot : Word)

/-- A pool, and the slots that claims have returned and no release has given back. -/
structure Session where
  pool : Pool
  outstanding : List Word

namespace Session

/-- A session begins with nothing handed out. -/
def start (pool : Pool) : Session := ⟨pool, []⟩

def step (s : Session) : Op → Session
  | .claim size near =>
    let (slot, pool) := s.pool.claim size near
    ⟨pool, if slot = 0 then s.outstanding else slot :: s.outstanding⟩
  | .release slot => ⟨s.pool.release slot, s.outstanding.erase slot⟩

def run (ops : List Op) (s : Session) : Session := ops.foldl step s

/-- The addresses of the slots. -/
def held (s : Session) : List Nat := s.outstanding.map BitVec.toNat

/-- What the callers may rely on, over a region given by its base, the size of a slot and their
number. -/
structure Sound (base size count : Nat) (s : Session) : Prop where
  disjoint : s.held.Pairwise fun a b ↦ a + size ≤ b ∨ b + size ≤ a
  inside : ∀ a ∈ s.held, base ≤ a ∧ a + size ≤ base + size * count ∧ a + size ≤ 2 ^ 64
  contained : ∀ a ∈ s.outstanding, s.pool.contains a = true
  nearest : ∀ asked near : Word, asked ≠ 0 → asked.toNat ≤ size →
    (∃ i < count, base + i * size ∉ s.held) →
      ∃ i < count, (s.pool.claim asked near).1.toNat = base + i * size ∧
        base + i * size ∉ s.held ∧ ∀ j < count, base + j * size ∉ s.held →
          Nat.dist (base + i * size) near.toNat ≤ Nat.dist (base + j * size) near.toNat
  bogus : ∀ a, a ∉ s.outstanding → s.pool.release a = s.pool

/-- The bits say what is handed out. -/
structure Tracks (s : Session) : Prop where
  nodup : s.held.Nodup
  isStart : ∀ a ∈ s.held, s.pool.slots.IsStart a
  taken : ∀ i < s.pool.slotCount, s.pool.slots.start i ∈ s.held ↔ s.pool.Taken i

variable {s : Session}

theorem mem_held {a : Word} : a.toNat ∈ s.held ↔ a ∈ s.outstanding :=
  List.mem_map_of_injective fun _ _ ↦ BitVec.eq_of_toNat_eq

theorem tracks_start {pool : Pool} (h : pool.used = 0) : (start pool).Tracks where
  nodup := List.nodup_nil
  isStart := fun _ ha ↦ absurd ha List.not_mem_nil
  taken := fun i _ ↦ iff_of_false List.not_mem_nil (by simp [Pool.Taken, start, h])

/-- A claim hands out a slot that was not handed out. -/
theorem Tracks.claim (h : s.Tracks) (hends : s.pool.Ends) (size near : Word) :
    (s.step (.claim size near)).Tracks ∧
      (s.step (.claim size near)).pool.slots = s.pool.slots := by
  rw [step]
  rcases s.pool.claim_cases size near with ⟨hclaim, -⟩ | ⟨i, hleast, -, hclaim⟩
  · rw [hclaim]
    exact ⟨h, rfl⟩
  · rw [hclaim]
    have haddress := Pool.toNat_slot hends hleast.lt
    have hbase : 0 < s.pool.base.toNat := Nat.pos_of_ne_zero fun hzero ↦
      s.pool.base_ne (BitVec.eq_of_toNat_eq hzero)
    have hne : s.pool.slot i ≠ 0 := fun hzero ↦ by
      have hstart := s.pool.base_le_start i
      rw [hzero] at haddress
      have : (0 : Word).toNat = 0 := rfl
      omega
    dsimp only
    rw [if_neg hne]
    have hheld : held ⟨s.pool.take i, s.pool.slot i :: s.outstanding⟩ =
        s.pool.slots.start i :: s.held := by
      rw [held, List.map_cons, haddress]
      rfl
    refine ⟨⟨?_, ?_, ?_⟩, rfl⟩
    · rw [hheld]
      exact List.nodup_cons.mpr ⟨fun hmem ↦ hleast.chosen ((h.taken i hleast.lt).mp hmem), h.nodup⟩
    · intro a ha
      rw [hheld] at ha
      rcases List.mem_cons.mp ha with rfl | ha
      · exact ⟨i, hleast.lt, rfl⟩
      · exact h.isStart a ha
    · intro j hj
      rw [hheld, Pool.taken_take (Pool.lt_of_lt_slotCount hleast.lt), List.mem_cons, or_comm]
      refine or_congr (h.taken j hj) ⟨fun heq ↦ Slots.start_inj heq, fun heq ↦ ?_⟩
      rw [heq]
      rfl

/-- A release gives back the slot at the address, if there is one. -/
theorem Tracks.release (h : s.Tracks) (a : Word) :
    (s.step (.release a)).Tracks ∧ (s.step (.release a)).pool.slots = s.pool.slots := by
  rw [step]
  rcases s.pool.release_cases a with ⟨hother, hrelease⟩ | ⟨i, hi, haddress, hrelease⟩
  · have hmem : a ∉ s.outstanding := fun hmem ↦ hother (h.isStart _ (mem_held.mpr hmem))
    rw [hrelease, List.erase_of_not_mem hmem]
    exact ⟨h, rfl⟩
  · rw [hrelease]
    have hheld : held ⟨s.pool.free i, s.outstanding.erase a⟩ =
        s.held.erase (s.pool.slots.start i) := by
      rw [held, List.map_erase fun _ _ ↦ BitVec.eq_of_toNat_eq, haddress]
      rfl
    refine ⟨⟨?_, ?_, ?_⟩, rfl⟩
    · rw [hheld]
      exact h.nodup.erase _
    · intro b hb
      rw [hheld] at hb
      exact h.isStart b (List.mem_of_mem_erase hb)
    · intro j hj
      rw [hheld, Pool.taken_free (Pool.lt_of_lt_slotCount hj), h.nodup.mem_erase_iff, and_comm]
      refine and_congr (h.taken j hj) (not_congr ⟨fun heq ↦ Slots.start_inj heq, fun heq ↦ ?_⟩)
      rw [heq]
      rfl

/-- **The run rule.**  The bits say what is handed out after any calls. -/
theorem Tracks.run (h : s.Tracks) (hends : s.pool.Ends) (ops : List Op) :
    (s.run ops).Tracks ∧ (s.run ops).pool.slots = s.pool.slots := by
  induction ops generalizing s with
  | nil => exact ⟨h, rfl⟩
  | cons op ops ih =>
    have hstep : (s.step op).Tracks ∧ (s.step op).pool.slots = s.pool.slots := by
      cases op with
      | claim size near => exact h.claim hends size near
      | release a => exact h.release a
    obtain ⟨hstep, hslots⟩ := hstep
    have hends' : (s.step op).pool.Ends := by
      rw [Pool.Ends, hslots]
      exact hends
    obtain ⟨hrun, hslots'⟩ := ih hstep hends'
    exact ⟨hrun, hslots'.trans hslots⟩

/-- No slot is lost: it is either free or held. -/
theorem Tracks.freeCount_add_length (h : s.Tracks) :
    s.pool.freeCount + s.outstanding.length = s.pool.slotCount := by
  have hperm : s.held.Perm
      (((List.range s.pool.slotCount).filter fun i ↦ s.pool.Taken i).map s.pool.slots.start) := by
    refine (List.perm_ext_iff_of_nodup h.nodup ?_).mpr fun a ↦ ?_
    · exact (List.nodup_range.filter _).map fun _ _ ↦ Slots.start_inj
    · rw [List.mem_map]
      constructor
      · intro ha
        obtain ⟨i, hi, rfl⟩ := h.isStart a ha
        exact ⟨i, List.mem_filter.mpr
          ⟨List.mem_range.mpr hi, decide_eq_true ((h.taken i hi).mp ha)⟩, rfl⟩
      · rintro ⟨i, hi, rfl⟩
        obtain ⟨hi, htaken⟩ := List.mem_filter.mp hi
        exact (h.taken i (List.mem_range.mp hi)).mpr (of_decide_eq_true htaken)
  have hlength := hperm.length_eq
  rw [held, List.length_map, List.length_map, ← List.countP_eq_length_filter] at hlength
  have hsum := List.length_eq_countP_add_countP (fun i ↦ decide (s.pool.Taken i))
    (l := List.range s.pool.slotCount)
  rw [List.length_range] at hsum
  rw [Pool.freeCount_eq, hlength]
  simp only [decide_not, Bool.not_eq_true, decide_eq_false_iff_not] at hsum ⊢
  omega

/-! ## What callers may rely on -/

/-- In a region that does not wrap they may rely on all of it. -/
theorem Tracks.sound (h : s.Tracks) (hends : s.pool.Ends) :
    s.Sound s.pool.base.toNat s.pool.slotSize.toNat s.pool.slotCount where
  disjoint := Slots.pairwise_apart h.nodup h.isStart
  inside := fun a ha ↦ by
    obtain ⟨i, hi, rfl⟩ := h.isStart a ha
    have hstop := Slots.start_add_size_le hi
    exact ⟨s.pool.base_le_start i, hstop, Nat.le_trans hstop (Nat.le_of_lt hends)⟩
  contained := fun a ha ↦ by
    obtain ⟨i, hi, haddress⟩ := h.isStart a.toNat (mem_held.mpr ha)
    rw [Pool.contains_iff hends, haddress]
    exact ⟨Slots.base_le_start i, Slots.start_lt_stop hi⟩
  nearest := fun asked near hne hsize hfree ↦ by
    rcases s.pool.claim_cases asked near with ⟨-, hall⟩ | ⟨i, hleast, -, hclaim⟩
    · obtain ⟨i, hi, hfree⟩ := hfree
      exact absurd ((h.taken i hi).mpr (hall ⟨hne, hsize⟩ i hi)) hfree
    · have hdistance {j : Nat} (hj : j < s.pool.slotCount) : s.pool.slotDistance near j =
          Nat.dist (s.pool.slots.start j) near.toNat := by
        rw [Pool.slotDistance, Pool.toNat_distance, Pool.toNat_slot hends hj]
      refine ⟨i, hleast.lt, ?_, fun hmem ↦ hleast.chosen ((h.taken i hleast.lt).mp hmem),
        fun j hj hfree ↦ ?_⟩
      · rw [hclaim]
        exact Pool.toNat_slot hends hleast.lt
      · have hle := hleast.least j hj fun htaken ↦ hfree ((h.taken j hj).mpr htaken)
        rwa [hdistance hleast.lt, hdistance hj] at hle
  bogus := fun a ha ↦ by
    rcases s.pool.release_cases a with ⟨-, hrelease⟩ | ⟨i, hi, haddress, hrelease⟩
    · exact hrelease
    · rw [hrelease]
      refine Pool.free_eq_self fun htaken ↦ ha (mem_held.mp ?_)
      rw [haddress]
      exact (h.taken i hi).mpr htaken

/-- In a region that wraps, the slot nearest to the base is handed out, and the pool does not take
it for one of its own. -/
theorem not_contains_of_wraps {pool : Pool} (hused : pool.used = 0) (hwraps : ¬ pool.Ends) :
    ∃ a ∈ ((start pool).run [.claim 1 pool.base]).outstanding,
      ((start pool).run [.claim 1 pool.base]).pool.contains a = false := by
  have huntaken (i : Nat) : pool.Free i := by simp [Pool.Free, Pool.Taken, hused]
  have hfits : pool.Fits 1 := ⟨by decide, pool.slotSize_pos⟩
  rcases pool.claim_cases 1 pool.base with ⟨-, hall⟩ | ⟨i, hleast, -, hclaim⟩
  · exact absurd (hall hfits 0 pool.slotCount_pos) (huntaken 0)
  · have hfirst : pool.slot 0 = pool.base := by simp [Pool.slot]
    have hslot : pool.slot i = pool.base := by
      have hle := hleast.least 0 pool.slotCount_pos (huntaken 0)
      rw [Pool.slotDistance, Pool.slotDistance, Pool.toNat_distance, Pool.toNat_distance, hfirst,
        Nat.dist_self] at hle
      exact BitVec.eq_of_toNat_eq (Nat.eq_of_dist_eq_zero (Nat.le_zero.mp hle))
    have hsession : (start pool).run [.claim 1 pool.base] = ⟨pool.take i, [pool.base]⟩ := by
      rw [run, List.foldl_cons, List.foldl_nil, step, start]
      dsimp only
      rw [hclaim, hslot]
      exact congrArg (Session.mk _) (if_neg pool.base_ne)
    rw [hsession]
    exact ⟨pool.base, List.mem_singleton_self _, Pool.contains_eq_false hwraps _⟩

end Session

theorem init_eq_some {base slotSize : Word} {slotCount : Nat} {pool : Pool}
    (h : init base slotSize slotCount = some pool) : pool.base = base ∧
      pool.slotSize = slotSize ∧ pool.slotCount = slotCount ∧ pool.used = 0 := by
  rw [init] at h
  split at h
  · cases h
  split at h
  · cases h
  cases h
  exact ⟨rfl, rfl, rfl, rfl⟩

/-- **The static pool.**  After any calls its callers may rely on what they hold if and only if the
region ends below the end of the address space.  The checks of `hk_static_pool_init` only bound the
size of the region, not where it ends. -/
theorem init_sound_iff {base slotSize : Word} {slotCount : Nat} {pool : Pool}
    (h : init base slotSize slotCount = some pool) :
    (∀ ops, ((Session.start pool).run ops).Sound base.toNat slotSize.toNat slotCount) ↔
      base.toNat + slotSize.toNat * slotCount < 2 ^ 64 := by
  obtain ⟨rfl, rfl, rfl, hused⟩ := init_eq_some h
  constructor
  · intro hsound
    by_contra hwraps
    obtain ⟨a, ha, hcontains⟩ := Session.not_contains_of_wraps hused hwraps
    have hcontained := (hsound _).contained a ha
    rw [hcontains] at hcontained
    cases hcontained
  · intro hends ops
    obtain ⟨htracks, hslots⟩ := (Session.tracks_start hused).run hends ops
    have hsound := htracks.sound (by rw [Pool.Ends, hslots]; exact hends)
    have hbase : _ = pool.base.toNat := congrArg Slots.base hslots
    have hsize : _ = pool.slotSize.toNat := congrArg Slots.size hslots
    have hcount : _ = pool.slotCount := congrArg Slots.count hslots
    rw [← hbase, ← hsize, ← hcount]
    exact hsound

/-- Eight pages, as the runtime sets its pool up. -/
theorem init_sound_iff_pages : ∃ pool, init 0x100000#64 16384 8 = some pool ∧
    ∀ ops, ((Session.start pool).run ops).Sound 0x100000 16384 8 :=
  ⟨_, rfl, (@init_sound_iff 0x100000#64 16384 8 _ rfl).mpr (by decide)⟩

/-- Three slots at the end of the address space: the pool is accepted, and a claim returns an
address below its base. -/
theorem claim_below_base : ∃ pool, init 0xFFFFFFFFFFFFFFC0#64 64 3 = some pool ∧
    (pool.claim 64 64).1 = 64 ∧
    ¬ ((Session.start pool).run [.claim 64 64]).Sound 0xFFFFFFFFFFFFFFC0 64 3 := by
  refine ⟨_, rfl, by decide, fun hsound ↦ ?_⟩
  have hinside := hsound.inside 64 (by decide)
  exact absurd hinside.1 (by decide)

end HookKit.StaticPool
