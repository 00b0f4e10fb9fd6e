import HookKit.Resolvers.ImportSlots

/-!
# Visitors that stop

`hk_import_slots_iterate` for visitors that may stop it.  Which slots are shown, and how the
iteration ends behind the last of them, does not depend on the visitor.

* `walkSlots_plays`, `slotsVisitSection_plays`, `visitSections_plays` — the loops of the iteration.
* `slotsIterate_recorded` — the slots a recording visitor is shown are the slots every visitor is
  shown.
-/

set_option autoImplicit false

namespace HookKit.ImportSlots

open MachO LittleEndian Checked Listing

variable {c : Contents}

/-- A part of the iteration, as the visit of its own slots; `broken` tells that something malformed
comes behind them. -/
def PlaysSlots (own : List ImportSlot) (broken : Bool)
    (part : (σ : Type) → (σ → ImportSlot → Bool × σ) → σ → Option (Bool × SlotsCtx σ)) : Prop :=
  ∀ σ visit s, part σ visit s =
    let r := visitAll (fun s _ slot ↦ visit s slot) 0 own s
    some (!r.1 && !broken, ⟨r.2, !r.1 && broken⟩)

theorem PlaysSlots.ends (broken : Bool) :
    PlaysSlots [] broken fun _ _ s ↦ some (!broken, ⟨s, broken⟩) := by
  intro σ visit s
  cases broken <;> rfl

/-- A part that shows a slot first. -/
theorem PlaysSlots.cons {slot : ImportSlot} {own : List ImportSlot} {broken : Bool}
    {part : (σ : Type) → (σ → ImportSlot → Bool × σ) → σ → Option (Bool × SlotsCtx σ)}
    (h : PlaysSlots own broken part) :
    PlaysSlots (slot :: own) broken fun σ visit s ↦
      match visit s slot with
      | (false, s) => some (false, ⟨s, false⟩)
      | (true, s) => part σ visit s := by
  intro σ visit s
  beta_reduce
  rcases hvisit : visit s slot with ⟨_ | _, t⟩
  · rw [visitAll_cons_stop hvisit]
    rfl
  · dsimp only
    rw [visitAll_cons_next hvisit, h, visitAll_renumber visit 1 0]

theorem walkSlots_plays (hcounted : c.indirect.length = c.indirectCount * 4)
    (nSect : Nat) (sect : MachoSection) (isLazy : Bool) (left i : Nat)
    (hwindow : sect.reserved1 + (i + left) ≤ c.indirectCount) :
    ∃ own broken, PlaysSlots own broken fun _ visit s ↦
      walkSlots c visit nSect sect isLazy left i ⟨s, false⟩ := by
  induction left generalizing i with
  | zero => exact ⟨[], false, .ends false⟩
  | succ left ih =>
    obtain ⟨entry, hentry, -⟩ :=
      @Safe.read 4 ((sect.reserved1 + i) * 4) c.indirect (by omega)
    obtain ⟨own, broken, hrest⟩ := ih (i + 1) (by omega)
    simp only [walkSlots, hentry, Option.bind_eq_bind, Option.bind_some]
    by_cases hmarked : entry &&& (indirectSymbolLocal ||| indirectSymbolAbs) ≠ 0
    · simp only [if_pos hmarked]
      exact ⟨own, broken, hrest⟩
    simp only [if_neg hmarked]
    by_cases hout : entry ≥ c.nlist.length
    · simp only [if_pos hout]
      exact ⟨[], true, .ends true⟩
    simp only [if_neg hout, List.getElem?_eq_getElem (Nat.not_le.mp hout), Option.bind_some]
    cases boundedString c.strings (c.nlist.get ⟨entry, Nat.not_le.mp hout⟩).strx with
    | none => exact ⟨[], true, .ends true⟩
    | some name => exact ⟨_, broken, hrest.cons⟩

theorem slotsVisitSection_plays (hcounted : c.indirect.length = c.indirectCount * 4)
    (nSect : Nat) (sect : MachoSection) :
    ∃ own broken, PlaysSlots own broken fun _ visit s ↦
      slotsVisitSection c visit ⟨s, false⟩ nSect sect := by
  simp only [slotsVisitSection]
  by_cases hother : sect.flags &&& sectionType ≠ nonLazySymbolPointers ∧
      !(sect.flags &&& sectionType == lazySymbolPointers)
  · simp only [if_pos hother]
    exact ⟨[], false, .ends false⟩
  simp only [if_neg hother]
  by_cases hodd : sect.size % importPointerSize ≠ 0
  · simp only [if_pos hodd]
    exact ⟨[], true, .ends true⟩
  simp only [if_neg hodd]
  by_cases hbig : sect.reserved1 + sect.size / importPointerSize > c.indirectCount
  · simp only [if_pos hbig]
    exact ⟨[], true, .ends true⟩
  simp only [if_neg hbig]
  exact walkSlots_plays hcounted nSect sect _ _ 0 (by omega)

/-- The sections one after the other, from section `n + 1` on. -/
theorem visitSections_plays (hcounted : c.indirect.length = c.indirectCount * 4)
    (sections : List MachoSection) (n : Nat) :
    ∃ own broken limited, ∀ (σ : Type) (visit : σ → ImportSlot → Bool × σ) (s : σ),
      visitAll (numbered (visitSection c visit)) n sections (some ⟨s, false⟩) =
        let r := visitAll (fun s _ slot ↦ visit s slot) 0 own s
        (r.1 || broken || limited, some ⟨r.2, !r.1 && broken⟩) := by
  induction sections generalizing n with
  | nil => exact ⟨[], false, false, fun σ visit s ↦ rfl⟩
  | cons sect rest ih =>
    by_cases hlimit : n + 1 > 0xff
    · refine ⟨[], false, true, ?_⟩
      intro σ visit s
      have hstop : numbered (visitSection c visit) (some ⟨s, false⟩) n sect =
          (false, some ⟨s, false⟩) := by
        rw [numbered, if_pos hlimit]
      exact visitAll_cons_stop hstop rest
    obtain ⟨own, broken, hown⟩ := slotsVisitSection_plays hcounted (n + 1) sect
    have hvisit : ∀ (σ : Type) (visit : σ → ImportSlot → Bool × σ) (s : σ),
        numbered (visitSection c visit) (some ⟨s, false⟩) n sect =
          let r := visitAll (fun s _ slot ↦ visit s slot) 0 own s
          (!r.1 && !broken, some ⟨r.2, !r.1 && broken⟩) := by
      intro σ visit s
      rw [numbered, if_neg hlimit, visitSection_of (hown σ visit s)]
    cases broken with
    | true =>
      refine ⟨own, true, false, fun σ visit s ↦ ?_⟩
      have hfirst := hvisit σ visit s
      simp only [Bool.not_true, Bool.and_false] at hfirst
      simp only [Bool.or_true, Bool.or_false]
      exact visitAll_cons_stop hfirst rest
    | false =>
      obtain ⟨slots, broken, limited, hrest⟩ := ih (n + 1)
      refine ⟨own ++ slots, broken, limited, fun σ visit s ↦ ?_⟩
      have hfirst := hvisit σ visit s
      rcases hplayed : visitAll (fun s _ slot ↦ visit s slot) 0 own s with ⟨_ | _, t⟩
      · rw [hplayed] at hfirst
        rw [visitAll_cons_next hfirst, visitAll_append_next hplayed, visitAll_renumber visit _ 0]
        exact hrest σ visit t
      · rw [hplayed] at hfirst
        rw [visitAll_cons_stop hfirst, visitAll_append_stop hplayed]
        rfl

/-- A visitor that writes down what it is shown. -/
def record : List ImportSlot → ImportSlot → Bool × List ImportSlot :=
  always fun shown slot ↦ shown ++ [slot]

theorem visitAll_record (n : Nat) (slots shown : List ImportSlot) :
    visitAll (fun s _ slot ↦ record s slot) n slots shown = (false, shown ++ slots) := by
  induction slots generalizing n shown with
  | nil => rw [visitAll, List.append_nil]
  | cons slot rest ih =>
    have hnext : record shown slot = (true, shown ++ [slot]) := rfl
    rw [visitAll_cons_next hnext, ih, List.append_assoc, List.singleton_append]

/-- **The slots do not depend on the visitor.**  There is always a row of them. -/
theorem slotsIterate_recorded (image : List Byte) (tables : Tables) :
    ∃ status slots, slotsIterate image tables record [] = some (status, slots) ∧
      ∀ {σ : Type} (visit : σ → ImportSlot → Bool × σ) (s : σ),
        slotsIterate image tables visit s =
          let r := visitAll (fun s _ slot ↦ visit s slot) 0 slots s
          some (if r.1 then .ok else status, r.2) := by
  cases hcontents : tables.contents with
  | none =>
    refine ⟨.ok, [], ?_, fun visit s ↦ ?_⟩
    · rw [slotsIterate, hcontents]
    · rw [slotsIterate, hcontents]
      rfl
  | some c =>
    obtain ⟨hcounted, -⟩ := tables.contents_spec hcontents
    obtain ⟨slots, broken, limited, hplays⟩ :=
      visitSections_plays hcounted (sections image).items 0
    -- how the iteration ends when nobody stops it
    let status : SlotsStatus :=
      if walkStatus (broken || limited) (sections image).whole (refusal image) ≠ .ok then .malformed
      else if broken then .malformed else .ok
    have hall : ∀ (σ : Type) (visit : σ → ImportSlot → Bool × σ) (s : σ),
        slotsIterate image tables visit s =
          let r := visitAll (fun s _ slot ↦ visit s slot) 0 slots s
          some (if r.1 then .ok else status, r.2) := by
      intro σ visit s
      rw [slotsIterate, hcontents]
      dsimp only
      rw [iterateSections_eq, hplays]
      rcases visitAll (fun s _ slot ↦ visit s slot) 0 slots s with ⟨_ | _, t⟩
      · simp only [Bool.false_or, Option.bind_eq_bind, Option.bind_some, status]
        split
        · rfl
        · cases broken <;> rfl
      · rfl
    refine ⟨status, slots, ?_, fun visit s ↦ hall _ visit s⟩
    rw [hall, visitAll_record]
    rfl

end HookKit.ImportSlots
