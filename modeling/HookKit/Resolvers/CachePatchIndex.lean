import HookKit.Resolvers.CachePatchAgreement
import Mathlib.Data.Prod.Lex
import Mathlib.Data.List.Sort

/-!
# The index of the process

The index holds the exports sorted by name; the run of a name is found by binary search, and the
runs of the candidates are merged.

* `candidateRun_eq` — the run of a name holds the exports of that name.
* `mergedRuns_eq` — the merged runs are the exports that match, in the order of the scan.
-/

set_option autoImplicit false

namespace HookKit.CachePatches

open LittleEndian Checked MachO

/-! ## Orders -/

/-- What names are compared by. -/
def textKey (name : CString) : List Nat := name.map BitVec.toNat

theorem textKey_injective : Function.Injective textKey :=
  List.map_injective_iff.mpr BitVec.toNat_injective

theorem strLess_iff {a b : CString} : strLess a b = true ↔ textKey a < textKey b := by
  rw [strLess, decide_eq_true_iff]
  rfl

/-- What exports are compared by. -/
def IndexEntry.key (entry : IndexEntry) : Nat ×ₗ Nat :=
    toLex (entry.definingImage, entry.exportIndex)

theorem IndexEntry.less_iff {a b : IndexEntry} : a.less b = true ↔ a.key < b.key := by
  rw [IndexEntry.less, IndexEntry.key, IndexEntry.key, Prod.Lex.toLex_lt_toLex]
  split
  · rename_i hne
    rw [decide_eq_true_iff]
    constructor
    · exact .inl
    · rintro (h | h)
      · exact h
      · exact absurd h.1 hne
  · rename_i heq
    rw [not_not] at heq
    rw [decide_eq_true_iff, heq]
    simp

theorem IndexEntry.not_less_iff {a b : IndexEntry} : (!b.less a) = true ↔ a.key ≤ b.key := by
  rw [Bool.not_eq_true', ← not_iff_not, Bool.not_eq_false, IndexEntry.less_iff, not_le]

/-- What named exports are compared by. -/
def namedKey (entry : CString × IndexEntry) : List Nat ×ₗ (Nat ×ₗ Nat) :=
  toLex (textKey entry.1, entry.2.key)

theorem namedLess_iff {a b : CString × IndexEntry} :
    namedLess a b = true ↔ namedKey a < namedKey b := by
  rw [namedLess, namedKey, namedKey, Prod.Lex.toLex_lt_toLex]
  dsimp only
  split
  · rename_i hne
    rw [strLess_iff]
    constructor
    · exact .inl
    · rintro (h | h)
      · exact h
      · exact absurd (textKey_injective h.1) hne
  · rename_i heq
    rw [not_not] at heq
    rw [IndexEntry.less_iff, heq]
    simp

theorem not_namedLess_iff {a b : CString × IndexEntry} :
    (!namedLess b a) = true ↔ namedKey a ≤ namedKey b := by
  rw [Bool.not_eq_true', ← not_iff_not, Bool.not_eq_false, namedLess_iff, not_le]

/-- Sorted exports. -/
def sorted (entries : List (CString × IndexEntry)) : List (CString × IndexEntry) :=
  entries.mergeSort fun a b ↦ !namedLess b a

theorem sorted_perm (entries : List (CString × IndexEntry)) : (sorted entries).Perm entries :=
  List.mergeSort_perm _ _

theorem sorted_pairwise (entries : List (CString × IndexEntry)) :
    (sorted entries).Pairwise fun a b ↦ namedKey a ≤ namedKey b := by
  refine (List.pairwise_mergeSort (fun a b c hab hbc ↦ ?_) (fun a b ↦ ?_) entries).imp
    fun h ↦ not_namedLess_iff.mp h
  · exact not_namedLess_iff.mpr ((not_namedLess_iff.mp hab).trans (not_namedLess_iff.mp hbc))
  · rw [Bool.or_eq_true, not_namedLess_iff, not_namedLess_iff]
    exact le_total _ _

theorem namedKey_text {a b : CString × IndexEntry} (h : namedKey a ≤ namedKey b) :
    textKey a.1 ≤ textKey b.1 := by
  rcases Prod.Lex.toLex_le_toLex.mp h with h | h
  · exact h.le
  · exact h.1.le

/-! ## Names -/

/-- A string is found whatever the bound, as long as its NUL lies within. -/
theorem scanString_mono {read : Nat → Option Nat} {left left' position : Nat} {name : CString}
    (h : scanString read left position = some (some name)) (hle : left ≤ left') :
    scanString read left' position = some (some name) := by
  induction left generalizing left' position name with
  | zero => cases h
  | succ left ih =>
    obtain ⟨left', rfl⟩ := Nat.exists_eq_add_of_le' (Nat.le_trans (Nat.succ_pos left) hle)
    rw [scanString] at h ⊢
    obtain ⟨byte, hbyte, h⟩ := Option.bind_eq_some_iff.mp h
    rw [hbyte]
    simp only [Option.bind_eq_bind, Option.bind_some]
    by_cases hzero : byte = 0
    · rw [if_pos hzero] at h ⊢
      exact h
    · rw [if_neg hzero] at h ⊢
      obtain ⟨rest, hrest, h⟩ := Option.bind_eq_some_iff.mp h
      cases rest with
      | none => cases h
      | some rest =>
        rw [ih hrest (by omega)]
        exact h

section

variable {m : Mapped} {t : TableV2} {entries : List (CString × IndexEntry)}

theorem Table.string_cString {names : Table} (h : names.Inside m 1) {offset : Nat} {name : CString}
    (hname : names.string m offset = some (some name)) :
    m.cString (names.start + offset) = some name := by
  rw [Table.string, boundedString] at hname
  split at hname
  · cases hname
  · rename_i hoffset
    have hlast := h (names.count - 1) (by omega)
    rw [Mapped.cString, scanString_mono hname (by omega)]
    rfl

/-- The names of the exports can be read from the cache. -/
def Named (m : Mapped) (entries : List (CString × IndexEntry)) : Prop :=
  ∀ entry ∈ entries, m.cString entry.2.name = some entry.1

theorem Recorded.named (h : Recorded m t entries) (ht : t.names.Inside m 1) : Named m entries := by
  intro entry hentry
  obtain ⟨row, nameAndKind, -, hat⟩ := h.entryAt hentry
  rw [hat.entry]
  exact Table.string_cString ht hat.name

theorem Named.of_mem {entries' : List (CString × IndexEntry)} (h : Named m entries)
    (hsub : ∀ entry ∈ entries', entry ∈ entries) : Named m entries' :=
  fun entry hentry ↦ h entry (hsub entry hentry)

/-! ## The run of a name -/

theorem entriesNamed_eq (h : Named m entries) (name : CString) :
    entriesNamed m name (entries.map Prod.snd) =
      some ((entries.takeWhile fun entry ↦ entry.1 = name).map Prod.snd) := by
  induction entries with
  | nil => rfl
  | cons entry rest ih =>
    rw [List.map_cons, entriesNamed, h entry List.mem_cons_self, List.takeWhile_cons]
    simp only [Option.bind_eq_bind, Option.bind_some]
    by_cases hname : entry.1 = name
    · rw [if_pos hname, ih (h.of_mem fun e he ↦ List.mem_cons_of_mem _ he), decide_eq_true hname]
      rfl
    · rw [if_neg hname, decide_eq_false hname]
      rfl

/-- Where the names begin that are not less than a name. -/
structure IsLowerBound (entries : List (CString × IndexEntry)) (name : CString) (low : Nat) :
    Prop where
  below : ∀ entry ∈ entries.take low, textKey entry.1 < textKey name
  above : ∀ entry ∈ entries.drop low, textKey name ≤ textKey entry.1

theorem mem_take_iff_lt {entry : CString × IndexEntry} {low : Nat} :
    entry ∈ entries.take low ↔ ∃ i, i < low ∧ entries[i]? = some entry := by
  rw [List.mem_iff_getElem?]
  constructor
  · rintro ⟨i, hi⟩
    rw [List.getElem?_take] at hi
    split at hi
    · exact ⟨i, ‹_›, hi⟩
    · cases hi
  · rintro ⟨i, hi, hget⟩
    exact ⟨i, by rwa [List.getElem?_take, if_pos hi]⟩

theorem mem_drop_iff_le {entry : CString × IndexEntry} {low : Nat} :
    entry ∈ entries.drop low ↔ ∃ i, low ≤ i ∧ entries[i]? = some entry := by
  rw [List.mem_iff_getElem?]
  constructor
  · rintro ⟨i, hi⟩
    rw [List.getElem?_drop] at hi
    exact ⟨low + i, Nat.le_add_right _ _, hi⟩
  · rintro ⟨i, hi, hget⟩
    exact ⟨i - low, by rwa [List.getElem?_drop, Nat.add_sub_cancel' hi]⟩

/-- **Binary search.** -/
theorem lowerBound_spec (h : Named m entries)
    (hsorted : entries.Pairwise fun a b ↦ textKey a.1 ≤ textKey b.1) (name : CString)
    {passes low high : Nat} (hpasses : high - low < passes) (hlow : low ≤ high)
    (hhigh : high ≤ entries.length)
    (hbelow : ∀ entry ∈ entries.take low, textKey entry.1 < textKey name)
    (habove : ∀ entry ∈ entries.drop high, textKey name ≤ textKey entry.1) :
    ∃ r, lowerBound m (entries.map Prod.snd) name passes low high = some r ∧
      IsLowerBound entries name r := by
  induction passes generalizing low high with
  | zero => omega
  | succ passes ih =>
    rw [lowerBound]
    split
    · rename_i hlt
      have hmid : low + (high - low) / 2 < entries.length := by omega
      generalize hmidEq : low + (high - low) / 2 = mid at hmid
      have hget := List.getElem?_eq_getElem hmid
      have hread := h entries[mid] (List.getElem_mem hmid)
      have hpair := List.pairwise_iff_getElem.mp hsorted
      dsimp only
      rw [List.getElem?_map, hget]
      simp only [Option.map_some, Option.bind_eq_bind, Option.bind_some]
      rw [hread]
      simp only [Option.bind_some]
      split
      · rename_i hless
        rw [strLess_iff] at hless
        refine ih (by omega) (by omega) hhigh (fun entry hentry ↦ ?_) habove
        obtain ⟨i, hi, hget'⟩ := mem_take_iff_lt.mp hentry
        obtain ⟨hilt, rfl⟩ := List.getElem?_eq_some_iff.mp hget'
        rcases Nat.lt_or_eq_of_le (Nat.lt_succ_iff.mp hi) with hlt' | rfl
        · exact (hpair i mid hilt hmid hlt').trans_lt hless
        · exact hless
      · rename_i hless
        rw [strLess_iff, not_lt] at hless
        refine ih (by omega) (by omega) (by omega) hbelow fun entry hentry ↦ ?_
        obtain ⟨i, hi, hget'⟩ := mem_drop_iff_le.mp hentry
        obtain ⟨hilt, rfl⟩ := List.getElem?_eq_some_iff.mp hget'
        rcases Nat.lt_or_eq_of_le hi with hlt' | rfl
        · exact hless.trans (hpair mid i hmid hilt hlt')
        · exact hless
    · obtain rfl : low = high := by omega
      exact ⟨low, rfl, hbelow, habove⟩

/-- Among sorted names that are not less than a name, its entries stand in front. -/
theorem takeWhile_eq_filter {name : CString}
    (hsorted : entries.Pairwise fun a b ↦ textKey a.1 ≤ textKey b.1)
    (hge : ∀ entry ∈ entries, textKey name ≤ textKey entry.1) :
    (entries.takeWhile fun entry ↦ entry.1 = name) = entries.filter fun entry ↦ entry.1 = name := by
  induction entries with
  | nil => rfl
  | cons entry rest ih =>
    rw [List.pairwise_cons] at hsorted
    rw [List.takeWhile_cons, List.filter_cons]
    by_cases hname : entry.1 = name
    · rw [decide_eq_true hname, ih hsorted.2 fun e he ↦ hge e (List.mem_cons_of_mem _ he)]
      rfl
    · rw [decide_eq_false hname, if_neg Bool.false_ne_true]
      refine (List.filter_eq_nil_iff.mpr fun e he heq ↦ hname ?_).symm
      have hle := hsorted.1 e he
      rw [of_decide_eq_true heq] at hle
      exact textKey_injective (hle.antisymm (hge entry List.mem_cons_self))

/-- **The run of a name** holds the exports of that name, sorted. -/
theorem candidateRun_eq (h : Named m entries) (name : CString) :
    candidateRun m (sortEntries entries) name =
      some (((sorted entries).filter fun entry ↦ entry.1 = name).map Prod.snd) := by
  have hnamed : Named m (sorted entries) := h.of_mem fun e he ↦ (sorted_perm entries).mem_iff.mp he
  have hsorted := (sorted_pairwise entries).imp namedKey_text
  obtain ⟨r, hr, hbelow, habove⟩ := lowerBound_spec hnamed hsorted name
    (Nat.lt_succ_self ((sorted entries).length - 0)) (Nat.zero_le _) (Nat.le_refl _) nofun
    (by rw [List.drop_length]; nofun)
  have hlength : (sortEntries entries).length = (sorted entries).length := List.length_map _
  rw [candidateRun, hlength, sortEntries]
  rw [Nat.sub_zero] at hr
  rw [show (entries.mergeSort fun a b ↦ !namedLess b a) = sorted entries from rfl, hr]
  simp only [Option.bind_eq_bind, Option.bind_some]
  rw [← List.map_drop, entriesNamed_eq (hnamed.of_mem fun e he ↦ List.mem_of_mem_drop he),
    takeWhile_eq_filter (hsorted.sublist (List.drop_sublist _ _)) habove]
  have hfront : ((sorted entries).take r).filter (fun entry ↦ entry.1 = name) = [] := by
    refine List.filter_eq_nil_iff.mpr fun e he heq ↦ ?_
    have hlt := hbelow e he
    rw [of_decide_eq_true heq] at hlt
    exact lt_irrefl _ hlt
  conv_rhs => rw [← List.take_append_drop r (sorted entries), List.filter_append, hfront]
  rfl

/-! ## Merging the runs -/

/-- The index is built only for tables whose exports are counted by 32 bits; there the order of the
scan is the order of the index. -/
theorem Before.less {a b : IndexEntry} {row row' : ImageRow}
    (hcount : t.imageExports.count ≤ uint32Max)
    (ha : EntryOf m t a row) (hb : EntryOf m t b row') (h : Before m t a b) : a.key < b.key := by
  rw [IndexEntry.key, IndexEntry.key, Prod.Lex.toLex_lt_toLex]
  refine h.imp id fun ⟨himage, hoffset⟩ ↦ ⟨himage, ?_⟩
  dsimp only
  have hrows : row = row' := by
    have hrow := ha.rowAt
    rw [himage, hb.rowAt] at hrow
    cases hrow
    rfl
  subst hrows
  have hindex := ha.exportIndex
  have hindex' := hb.exportIndex
  have hlast := hb.offset
  have hholds := ha.holds.2
  rw [uint32Max] at hcount
  rw [Nat.mod_eq_of_lt (by omega)] at hindex hindex'
  omega

theorem Recorded.matching_sorted (h : Recorded m t entries)
    (hcount : t.imageExports.count ≤ uint32Max) (candidates : List CString) :
    (matching candidates entries).Pairwise fun a b ↦ a.key < b.key := by
  refine (h.matching_ordered candidates).imp_of_mem fun ha hb hbefore ↦ ?_
  obtain ⟨row, -, hrow, -⟩ := h.matching_entry ha
  obtain ⟨row', -, hrow', -⟩ := h.matching_entry hb
  exact Before.less hcount hrow hrow' hbefore

theorem matching_cons_perm {name : CString} {names : List CString} (hname : name ∉ names)
    (entries : List (CString × IndexEntry)) :
    (matching (name :: names) entries).Perm
      ((entries.filter fun entry ↦ entry.1 = name).map Prod.snd ++ matching names entries) := by
  induction entries with
  | nil => exact .nil
  | cons entry rest ih =>
    rw [matching_cons, matching_cons, List.filter_cons]
    by_cases heq : entry.1 = name
    · rw [if_pos (heq ▸ List.mem_cons_self), if_pos (decide_eq_true heq), if_neg (heq ▸ hname)]
      exact ih.cons entry.2
    · rw [if_neg fun hdec ↦ heq (of_decide_eq_true hdec)]
      by_cases hmem : entry.1 ∈ names
      · rw [if_pos (List.mem_cons_of_mem _ hmem), if_pos hmem]
        exact (ih.cons entry.2).trans List.perm_middle.symm
      · rw [if_neg (by simp [heq, hmem]), if_neg hmem]
        exact ih

theorem matching_nil (entries : List (CString × IndexEntry)) : matching [] entries = [] := by
  rw [matching, List.filter_eq_nil_iff.mpr fun e _ ↦ by simp]
  rfl

/-- The merged runs hold the exports that match, sorted. -/
theorem mergedRuns_perm (h : Named m entries) {candidates : List CString}
    (hnodup : candidates.Nodup) :
    ∃ merged, mergedRuns m (sortEntries entries) candidates = some merged ∧
      merged.Perm (matching candidates entries) ∧ merged.Pairwise fun a b ↦ a.key ≤ b.key := by
  induction candidates with
  | nil =>
    refine ⟨[], rfl, ?_, .nil⟩
    rw [matching_nil]
  | cons name names ih =>
    rw [List.nodup_cons] at hnodup
    obtain ⟨others, hothers, hperm, hpairs⟩ := ih hnodup.2
    refine ⟨_, by rw [mergedRuns, candidateRun_eq h, hothers]; rfl, ?_, ?_⟩
    · refine (List.merge_perm_append ..).trans
        (.trans ?_ (matching_cons_perm hnodup.1 entries).symm)
      exact (((sorted_perm entries).filter _).map _).append hperm
    · have hrun : (((sorted entries).filter fun entry ↦ entry.1 = name).map Prod.snd).Pairwise
          fun a b ↦ (!b.less a) = true := by
        rw [List.pairwise_map]
        refine ((sorted_pairwise entries).filter _).imp_of_mem fun {a b} ha hb hle ↦ ?_
        have hatext : a.1 = name := of_decide_eq_true (List.mem_filter.mp ha).2
        have hbtext : b.1 = name := of_decide_eq_true (List.mem_filter.mp hb).2
        rw [IndexEntry.not_less_iff]
        rw [namedKey, namedKey, hatext, hbtext, Prod.Lex.toLex_le_toLex] at hle
        rcases hle with hlt | hle
        · exact absurd hlt (lt_irrefl _)
        · exact hle.2
      refine (List.pairwise_merge (fun a b c hab hbc ↦ ?_) (fun a b ↦ ?_) _ _ hrun
        (hpairs.imp IndexEntry.not_less_iff.mpr)).imp IndexEntry.not_less_iff.mp
      · exact IndexEntry.not_less_iff.mpr
          ((IndexEntry.not_less_iff.mp hab).trans (IndexEntry.not_less_iff.mp hbc))
      · rw [Bool.or_eq_true, IndexEntry.not_less_iff, IndexEntry.not_less_iff]
        exact le_total _ _

/-- **The merged runs** are the exports that match, in the order of the scan. -/
theorem mergedRuns_eq (h : Recorded m t entries) (ht : t.names.Inside m 1)
    (hcount : t.imageExports.count ≤ uint32Max) {candidates : List CString}
    (hnodup : candidates.Nodup) :
    mergedRuns m (sortEntries entries) candidates = some (matching candidates entries) := by
  obtain ⟨merged, hmerged, hperm, hpairs⟩ := mergedRuns_perm (h.named ht) hnodup
  have hstrict := h.matching_sorted hcount candidates
  rw [hmerged, Option.some_inj]
  refine hperm.eq_of_pairwise (fun a b ha hb hab hba ↦ ?_) hpairs (hstrict.imp le_of_lt)
  -- no two exports of the tables have one key
  have hkeys : ∀ ⦃x⦄, x ∈ matching candidates entries → ∀ ⦃y⦄, y ∈ matching candidates entries →
      x = y ∨ x.key < y.key ∨ y.key < x.key :=
    List.Pairwise.forall_of_forall_of_flip (fun x _ ↦ .inl rfl)
      (hstrict.imp fun hlt ↦ .inr (.inl hlt)) (hstrict.imp fun hlt ↦ .inr (.inr hlt))
  rcases hkeys (hperm.mem_iff.mp ha) hb with heq | hlt | hlt
  · exact heq
  · exact absurd hlt (not_lt.mpr hba)
  · exact absurd hlt (not_lt.mpr hab)

end

end HookKit.CachePatches
