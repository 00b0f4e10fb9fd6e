import HookKit.Lib.Listing
import HookKit.Resolvers.ChainedFixups

/-!
# The binds of a walk

The walk over the chains shows its binds one after the other until its visitor stops it.  Which
binds these are, and how the walk ends behind the last of them, does not depend on the visitor.

* `Binds`, `Binds.play` — a row of binds with an end, and what a visitor makes of it.
* `walkChain_plays`, …, `walkSegments_plays` — every loop of the walk plays such a row.
* `iterate_recorded` — the row a recording visitor is shown is the row of every visitor.
-/

set_option autoImplicit false

namespace HookKit.Chained

open LittleEndian Listing

/-- What a walk shows, and how it ends when nobody stops it; `none` when it reads outside the
buffers. -/
structure Binds where
  shown : List ChainedBind
  ended : Option ChainedStatus

variable {σ : Type}

/-- What a visitor makes of a row of binds. -/
def Binds.play (binds : Binds) (visit : Visit σ) (s : σ) : Option (Walked σ) :=
  match visitAll (fun s _ bind ↦ visit s bind) 0 binds.shown s with
  | (true, s) => some (.ok, true, s)
  | (false, s) => binds.ended.map fun status ↦ (status, false, s)

/-- One row after another, if the first ends well. -/
def Binds.andThen (binds rest : Binds) : Binds :=
  if binds.ended = some .ok then ⟨binds.shown ++ rest.shown, rest.ended⟩ else binds

theorem Binds.play_andThen (binds rest : Binds) (visit : Visit σ) (s : σ) :
    (binds.andThen rest).play visit s =
      match binds.play visit s with
      | some (.ok, false, s) => rest.play visit s
      | ended => ended := by
  rw [Binds.andThen]
  split
  · rename_i hended
    rw [Binds.play, Binds.play]
    rcases hvisit : visitAll (fun s _ bind ↦ visit s bind) 0 binds.shown s with ⟨_ | _, s'⟩
    · dsimp only
      rw [visitAll_append_next hvisit, hended, Option.map_some, visitAll_renumber visit _ 0]
      rfl
    · dsimp only
      rw [visitAll_append_stop hvisit]
  · rename_i hended
    rw [Binds.play]
    rcases visitAll (fun s _ bind ↦ visit s bind) 0 binds.shown s with ⟨_ | _, s'⟩
    · rcases hend : binds.ended with _ | status
      · rfl
      · cases status with
        | ok => exact absurd hend hended
        | _ => rfl
    · rfl

/-- A walk that plays a row of binds to its visitor. -/
def Plays (walk : (σ : Type) → Visit σ → σ → Option (Walked σ)) : Prop :=
  ∃ binds : Binds, ∀ σ (visit : Visit σ) (s : σ), walk σ visit s = binds.play visit s

namespace Plays

variable {walk walk' : (σ : Type) → Visit σ → σ → Option (Walked σ)}

theorem congr (h : ∀ σ visit s, walk σ visit s = walk' σ visit s) (hwalk : Plays walk') :
    Plays walk := by
  obtain ⟨binds, hbinds⟩ := hwalk
  exact ⟨binds, fun σ visit s ↦ (h σ visit s).trans (hbinds σ visit s)⟩

/-- A walk that ends before it has shown anything. -/
theorem ends (ended : Option ChainedStatus) :
    Plays fun _ _ s ↦ ended.map fun status ↦ (status, false, s) :=
  ⟨⟨[], ended⟩, fun _ _ _ ↦ rfl⟩

/-- A walk that decides how it goes on. -/
theorem ite {p : Prop} [Decidable p] (h : Plays walk) (h' : Plays walk') :
    Plays fun σ visit s ↦ if p then walk σ visit s else walk' σ visit s := by
  by_cases hp : p
  · exact h.congr fun _ _ _ ↦ if_pos hp
  · exact h'.congr fun _ _ _ ↦ if_neg hp

/-- A walk that reads a number first. -/
theorem bind {α : Type} {read : Option α}
    {walk : α → (σ : Type) → Visit σ → σ → Option (Walked σ)} (h : ∀ a, Plays (walk a)) :
    Plays fun σ visit s ↦ read.bind fun a ↦ walk a σ visit s := by
  cases read with
  | none => exact .ends none
  | some a => exact h a

/-- A walk that goes on with another one. -/
theorem andThen (h : Plays walk) (h' : Plays walk') :
    Plays fun σ visit s ↦
      match walk σ visit s with
      | some (.ok, false, s) => walk' σ visit s
      | ended => ended := by
  obtain ⟨binds, hbinds⟩ := h
  obtain ⟨binds', hbinds'⟩ := h'
  refine ⟨binds.andThen binds', fun σ visit s ↦ ?_⟩
  beta_reduce
  rw [Binds.play_andThen, hbinds]
  rcases binds.play visit s with _ | ⟨_ | _, _ | _, s'⟩ <;> first | rfl | exact hbinds' σ visit s'

end Plays

/-- One pointer. -/
theorem visitPtr_plays (c : ChainCtx) (offset : Nat) (ptr : ChainedPtr) :
    Plays fun _ visit s ↦
      match visitPtr c visit offset ptr s with
      | (false, s) => some (.ok, true, s)
      | (true, s) => some (.ok, false, s) := by
  cases hbind : ptr.isBind with
  | false =>
    refine .congr (fun σ visit s ↦ ?_) (.ends (some .ok))
    unfold visitPtr
    rw [hbind]
    rfl
  | true =>
    refine ⟨⟨[⟨offset, ptr.ordinal, c.segmentIndex, c.pointerFormat, ptr.isAuth, ptr.key,
      ptr.diversity, ptr.addressDiversity, ptr.addend⟩], some .ok⟩, fun σ visit s ↦ ?_⟩
    unfold visitPtr Binds.play visitAll
    simp only [hbind, if_true]
    rcases visit s _ with ⟨_ | _, s'⟩ <;> rfl

theorem walkChain_plays (c : ChainCtx) (passes offset : Nat) :
    Plays fun _ visit s ↦ walkChain c visit passes offset s := by
  induction passes generalizing offset with
  | zero => exact .ends none
  | succ passes ih =>
    refine .ite (.ends (some .malformed)) (.ite (.ends (some .malformed)) ?_)
    cases readLE 8 c.storage (c.storageSegmentStart + (offset - c.segmentStart)) with
    | none => exact .ends none
    | some raw =>
      let ptr := decodePointer raw c.pointerFormat
      have hrest : Plays fun _ visit s ↦
          if ptr.next = 0 then some (.ok, false, s)
          else if (offset + ptr.next * c.stride) % 2 ^ 64 ≤ offset then some (.malformed, false, s)
          else walkChain c visit passes ((offset + ptr.next * c.stride) % 2 ^ 64) s :=
        .ite (.ends (some .ok)) (.ite (.ends (some .malformed)) (ih _))
      refine .congr (fun σ visit s ↦ ?_) ((visitPtr_plays c offset ptr).andThen hrest)
      rcases hvisit : visitPtr c visit offset ptr s with ⟨_ | _, s'⟩ <;> simp only [ptr, hvisit]

theorem walkMulti_plays (c : ChainCtx) (blob : List Byte) (pageStart startsExtent pageBase : Nat)
    (passes index : Nat) :
    Plays fun _ visit s ↦
      walkMulti c visit blob pageStart startsExtent pageBase passes index s := by
  induction passes generalizing index with
  | zero => exact .ends none
  | succ passes ih =>
    refine .ite (.ends (some .malformed)) ?_
    cases readLE 2 blob (pageStart + index * 2) with
    | none => exact .ends none
    | some entry => exact (walkChain_plays c _ _).andThen (.ite (.ends (some .ok)) (ih _))

theorem walkPages_plays (c : ChainCtx) (blob : List Byte) (pageStart startsExtent pageSize : Nat)
    (left page : Nat) :
    Plays fun _ visit s ↦
      walkPages c visit blob pageStart startsExtent pageSize left page s := by
  induction left generalizing page with
  | zero => exact .ends (some .ok)
  | succ left ih =>
    unfold walkPages
    cases readLE 2 blob (pageStart + page * 2) with
    | none => exact .ends none
    | some start =>
      exact .andThen (.ite (.ends (some .ok))
        (.ite (walkMulti_plays c blob _ _ _ _ _) (walkChain_plays c _ _))) (ih (page + 1))

theorem walkSegment_plays (fixups : ChainedFixups) (storage : List Byte)
    (mapping : Option SegmentMapping) (segInfoOffset segmentIndex : Nat) :
    Plays fun _ visit s ↦
      walkSegment fixups storage mapping segInfoOffset segmentIndex visit s := by
  refine .ite (.ends (some .malformed)) (.bind fun declaredSize ↦ .bind fun pageSize ↦
    .bind fun ptrFormat ↦ .bind fun segmentOff ↦ .bind fun pageCount ↦ ?_)
  refine .ite (.ends (some .malformed)) (.ite (.ends (some .unsupportedFormat)) ?_)
  iterate 5 refine .ite (.ends (some .malformed)) ?_
  exact walkPages_plays _ _ _ _ _ _ _

theorem walkSegments_plays (fixups : ChainedFixups) (storage : List Byte)
    (segments : Option (List SegmentMapping)) (left i : Nat) :
    Plays fun _ visit s ↦ walkSegments fixups storage segments visit left i s := by
  induction left generalizing i with
  | zero => exact .ends (some .ok)
  | succ left ih =>
    unfold walkSegments
    cases readLE 4 fixups.blob (fixups.startsOffset + 4 + i * 4) with
    | none => exact .ends none
    | some segInfoOffset =>
      exact .ite (ih (i + 1)) (.ite (.ends (some .malformed)) (.ite (.ends (some .malformed))
        ((walkSegment_plays fixups storage _ _ i).andThen (ih (i + 1)))))

/-- A visitor that writes down what it is shown. -/
def record : Visit (List ChainedBind) := fun shown bind ↦ (true, shown ++ [bind])

theorem visitAll_record (n : Nat) (binds shown : List ChainedBind) :
    visitAll (fun s _ bind ↦ record s bind) n binds shown = (false, shown ++ binds) := by
  induction binds generalizing n shown with
  | nil => rw [visitAll, List.append_nil]
  | cons bind rest ih =>
    have hnext : record shown bind = (true, shown ++ [bind]) := rfl
    rw [visitAll_cons_next hnext, ih, List.append_assoc, List.singleton_append]

/-- What a visitor makes of the binds that a recording one is shown. -/
def replay (visit : Visit σ) (ended : ChainedStatus) (binds : List ChainedBind) (s : σ) :
    ChainedStatus × σ :=
  match visitAll (fun s _ bind ↦ visit s bind) 0 binds s with
  | (true, s) => (.ok, s)
  | (false, s) => (ended, s)

/-- **The binds do not depend on the visitor**: what a recording visitor is shown is what every
visitor is shown, until it stops. -/
theorem iterate_recorded {fixups : ChainedFixups} {storage : List Byte}
    {segments : Option (List SegmentMapping)} {ended : ChainedStatus} {binds : List ChainedBind}
    (h : iterate fixups storage segments record [] = some (ended, binds)) (visit : Visit σ)
    (s : σ) : iterate fixups storage segments visit s = some (replay visit ended binds s) := by
  rw [iterate] at h ⊢
  split at h
  · rename_i hempty
    cases h
    rw [if_pos hempty]
    rfl
  rename_i hsegments
  rw [if_neg hsegments]
  split at h
  · rename_i hshort
    cases h
    rw [if_pos hshort]
    rfl
  rename_i hstarts
  rw [if_neg hstarts]
  obtain ⟨segCount, hcount, h⟩ := Option.bind_eq_some_iff.mp h
  rw [hcount]
  simp only [Option.bind_eq_bind, Option.bind_some]
  split at h
  · rename_i hmany
    cases h
    rw [if_pos hmany]
    rfl
  rename_i hfew
  rw [if_neg hfew]
  obtain ⟨row, hrow⟩ := walkSegments_plays fixups storage segments segCount 0
  beta_reduce at hrow
  obtain ⟨⟨status, stopped, shown⟩, hwalked, h⟩ := Option.bind_eq_some_iff.mp h
  cases h
  rw [hrow _ record, Binds.play, visitAll_record, List.nil_append] at hwalked
  obtain ⟨status, hended, hwalked⟩ := Option.map_eq_some_iff.mp hwalked
  cases hwalked
  rw [hrow _ visit, Binds.play, hended, replay]
  rcases visitAll (fun s _ bind ↦ visit s bind) 0 row.shown s with ⟨_ | _, s'⟩ <;> rfl

end HookKit.Chained
