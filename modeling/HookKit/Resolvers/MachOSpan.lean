import HookKit.Resolvers.MachOListings
import Mathlib.Order.Bounds.Basic
import Mathlib.Data.Set.Lattice

/-!
# The span of a loaded image

`hk_macho_image_span_for_loaded_image`: from where to where an image is mapped.

* `Mappable`, `Span` — which segments count, and what their span is.
* `imageSpan_spec` — the function finds the span of the segments that count, slid.
-/

set_option autoImplicit false

namespace HookKit.MachO

open Listing

/-! ## The function -/

/-- `"__PAGEZERO"`. -/
def pagezeroName : List Byte :=
  [0x5f#8, 0x5f#8, 0x50#8, 0x41#8, 0x47#8, 0x45#8, 0x5a#8, 0x45#8, 0x52#8, 0x4f#8]

/-- `span_acc_t`. -/
structure SpanAcc where
  minVmaddr : Nat
  maxEnd : Nat
  any : Bool

/-- `span_visit`. -/
def spanVisit (acc : SpanAcc) (_index : Nat) (seg : MachoSegment) : Bool × SpanAcc :=
  if seg.vmsize = 0 then (true, acc)
  else if seg.segname = pagezeroName then (true, acc)
  else
    let stop := (seg.vmaddr + seg.vmsize) % 2 ^ 64
    -- an overflowing segment is refused to widen the span
    if stop < seg.vmaddr then (true, acc)
    else (true, {
      minVmaddr := if !acc.any ∨ seg.vmaddr < acc.minVmaddr then seg.vmaddr else acc.minVmaddr
      maxEnd := if !acc.any ∨ stop > acc.maxEnd then stop else acc.maxEnd
      any := true })

/-- `hk_macho_image_span_for_loaded_image`: start and end. -/
def imageSpanForLoadedImage (header : List Byte) (slide : BitVec 64) :
    Option (Except MachoStatus (Nat × Nat)) := do
  match ← iterateSegments header spanVisit ⟨0, 0, false⟩ with
  | (.ok, acc) =>
    if !acc.any then some (.error .notFound)
    else some (.ok ((acc.minVmaddr + slide.toNat) % 2 ^ 64, (acc.maxEnd + slide.toNat) % 2 ^ 64))
  | (status, _) => some (.error status)

/-! ## The span -/

/-- A segment that counts: one that is not empty, is not `__PAGEZERO` and does not wrap around. -/
def Mappable (seg : MachoSegment) : Prop :=
  seg.vmsize ≠ 0 ∧ seg.segname ≠ pagezeroName ∧ seg.vmaddr + seg.vmsize < 2 ^ 64

/-- Where a segment ends. -/
def MachoSegment.stop (seg : MachoSegment) : Nat := seg.vmaddr + seg.vmsize

/-- The segments of a set that count. -/
def mapped (segs : Set MachoSegment) : Set MachoSegment := segs ∩ {seg | Mappable seg}

/-- The lowest start and the highest end of the segments that count. -/
def Span (segs : Set MachoSegment) (low high : Nat) : Prop :=
  IsLeast (MachoSegment.vmaddr '' mapped segs) low ∧
    IsGreatest (MachoSegment.stop '' mapped segs) high

theorem Span.unique {segs : Set MachoSegment} {low high low' high' : Nat} (h : Span segs low high)
    (h' : Span segs low' high') : low = low' ∧ high = high' :=
  ⟨h.1.unique h'.1, h.2.unique h'.2⟩

theorem mapped_insert {seg : MachoSegment} (segs : Set MachoSegment) (h : Mappable seg) :
    mapped (insert seg segs) = insert seg (mapped segs) := Set.insert_inter_of_mem h

theorem mapped_insert_of_not {seg : MachoSegment} (segs : Set MachoSegment) (h : ¬ Mappable seg) :
    mapped (insert seg segs) = mapped segs := Set.insert_inter_of_notMem h

/-- A segment that counts widens the span. -/
theorem Span.widen {segs : Set MachoSegment} {low high : Nat} (h : Span segs low high)
    {seg : MachoSegment} (hmap : Mappable seg) :
    Span (insert seg segs) (min seg.vmaddr low) (max seg.stop high) := by
  rw [Span, mapped_insert segs hmap, Set.image_insert_eq, Set.image_insert_eq]
  exact ⟨h.1.insert _, h.2.insert _⟩

/-- The first segment that counts is the span. -/
theorem Span.first {segs : Set MachoSegment} (h : mapped segs = ∅) {seg : MachoSegment}
    (hmap : Mappable seg) : Span (insert seg segs) seg.vmaddr seg.stop := by
  rw [Span, mapped_insert segs hmap, h, insert_empty_eq, Set.image_singleton, Set.image_singleton]
  exact ⟨isLeast_singleton, isGreatest_singleton⟩

/-- What the visitor has collected from the segments so far. -/
def SpanAcc.Of (acc : SpanAcc) (segs : Set MachoSegment) : Prop :=
  if acc.any then Span segs acc.minVmaddr acc.maxEnd else mapped segs = ∅

/-- A segment that does not count leaves everything as it is. -/
theorem SpanAcc.Of.skip {acc : SpanAcc} {segs : Set MachoSegment} (h : acc.Of segs)
    {seg : MachoSegment} (hnot : ¬ Mappable seg) : acc.Of (insert seg segs) := by
  rw [SpanAcc.Of, Span, mapped_insert_of_not segs hnot]
  exact h

/-- One segment more. -/
theorem spanVisit_of {acc : SpanAcc} {segs : Set MachoSegment} (h : acc.Of segs) (n : Nat)
    {seg : MachoSegment} (hlt : seg.vmaddr < 2 ^ 64 ∧ seg.vmsize < 2 ^ 64) :
    ∃ acc', spanVisit acc n seg = (true, acc') ∧ acc'.Of (insert seg segs) := by
  rw [spanVisit]
  by_cases hempty : seg.vmsize = 0
  · rw [if_pos hempty]
    exact ⟨acc, rfl, h.skip fun hmap ↦ hmap.1 hempty⟩
  by_cases hzero : seg.segname = pagezeroName
  · rw [if_neg hempty, if_pos hzero]
    exact ⟨acc, rfl, h.skip fun hmap ↦ hmap.2.1 hzero⟩
  rw [if_neg hempty, if_neg hzero]
  dsimp only
  by_cases hwrap : seg.vmaddr + seg.vmsize < 2 ^ 64
  · have hmap : Mappable seg := ⟨hempty, hzero, hwrap⟩
    rw [Nat.mod_eq_of_lt hwrap, if_neg (by omega)]
    refine ⟨_, rfl, ?_⟩
    rw [SpanAcc.Of] at h ⊢
    rw [if_pos rfl]
    cases hany : acc.any with
    | true =>
      rw [hany, if_pos rfl] at h
      have hwide := h.widen hmap
      simp only [Bool.not_true, Bool.false_eq_true, false_or]
      rw [min_def_lt, max_comm, max_def_lt] at hwide
      exact hwide
    | false =>
      rw [hany, if_neg Bool.false_ne_true] at h
      simp only [Bool.not_false, true_or, if_true]
      exact .first h hmap
  · rw [if_pos (by omega)]
    exact ⟨acc, rfl, h.skip fun hmap ↦ hwrap hmap.2.2⟩

theorem visitAll_span {acc : SpanAcc} {segs : Set MachoSegment} (h : acc.Of segs) (n : Nat)
    {l : List MachoSegment} (hlt : ∀ seg ∈ l, seg.vmaddr < 2 ^ 64 ∧ seg.vmsize < 2 ^ 64) :
    ∃ acc', visitAll spanVisit n l acc = (false, acc') ∧ acc'.Of (segs ∪ {seg | seg ∈ l}) := by
  induction l generalizing n acc segs with
  | nil => exact ⟨acc, rfl, by simpa using h⟩
  | cons seg rest ih =>
    obtain ⟨acc', hvisit, hof⟩ := spanVisit_of h n (hlt seg List.mem_cons_self)
    obtain ⟨acc'', hrest, hof'⟩ := ih hof (n + 1) fun x hx ↦ hlt x (List.mem_cons_of_mem _ hx)
    refine ⟨acc'', by rw [visitAll_cons_next hvisit, hrest], ?_⟩
    have hset : segs ∪ {x | x ∈ seg :: rest} = insert seg segs ∪ {x | x ∈ rest} := by
      ext x
      simp only [Set.mem_union, Set.mem_ofPred_eq, List.mem_cons, Set.mem_insert_iff]
      tauto
    rwa [hset]

/-- **The span of an image**: it is found exactly when the load commands can be read and a segment
counts, and it is the span of the segments that count, slid. -/
theorem imageSpan_spec (header : List Byte) (slide : BitVec 64) :
    ∃ r, imageSpanForLoadedImage header slide = some r ∧ ∀ range, r = .ok range ↔
      (segments header).whole ∧ ∃ low high, Span {seg | seg ∈ (segments header).items} low high ∧
        range = ((low + slide.toNat) % 2 ^ 64, (high + slide.toNat) % 2 ^ 64) := by
  have hstart : SpanAcc.Of ⟨0, 0, false⟩ ∅ := Set.empty_inter _
  obtain ⟨acc, hvisit, hof⟩ := visitAll_span hstart 0 fun seg hseg ↦ segments_lt hseg
  rw [Set.empty_union] at hof
  rw [imageSpanForLoadedImage, iterateSegments_eq, hvisit]
  have hrefusal := refusal_ne_ok header
  cases hwhole : (segments header).whole with
  | false =>
    refine ⟨.error (refusal header), ?_, fun range ↦ iff_of_false nofun fun h ↦ nomatch h.1⟩
    simp only [walkStatus, Bool.or_self, Bool.false_eq_true, if_false, Option.bind_eq_bind,
      Option.bind_some]
  | true =>
    rw [SpanAcc.Of] at hof
    simp only [walkStatus, Bool.or_true, if_true, Option.bind_eq_bind, Option.bind_some, true_and]
    cases hany : acc.any with
    | false =>
      rw [hany, if_neg Bool.false_ne_true] at hof
      refine ⟨_, rfl, fun range ↦ iff_of_false nofun fun ⟨low, high, hspan, _⟩ ↦ ?_⟩
      obtain ⟨⟨seg, hseg, -⟩, -⟩ := hspan.1
      rw [hof] at hseg
      exact hseg
    | true =>
      rw [hany, if_pos rfl] at hof
      refine ⟨_, rfl, fun range ↦ ⟨fun heq ↦ ⟨_, _, hof, ?_⟩, fun ⟨low, high, hspan, heq⟩ ↦ ?_⟩⟩
      · cases heq
        rfl
      · obtain ⟨rfl, rfl⟩ := hof.unique hspan
        rw [heq]

end HookKit.MachO
