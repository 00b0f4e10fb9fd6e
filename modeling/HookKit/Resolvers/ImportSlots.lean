import HookKit.Resolvers.MachOListings
import HookKit.Resolvers.SymbolTable

/-!
# Import slots

`hk_import_slots_iterate`: the pointer slots of an image, each with the symbol it binds to.  A slot
is named through the indirect symbol table, the symbol table and the string table; the ranges of all
of them come out of the image.

* `SlotAt`, `SectionSlots`, `AllSlots` — the slots there are, said from the tables alone.
* `slotsIterate_spec` — these slots are visited, in order, or the image is malformed.
-/

set_option autoImplicit false

namespace HookKit.ImportSlots

open MachO LittleEndian Checked Listing SymbolTable

/-! ## The iteration -/

/-- `hk_import_status_t`, as far as the iteration goes. -/
inductive SlotsStatus where
  | ok | malformed
deriving DecidableEq, Repr

/-- `HK_SECTION_TYPE`, `HK_S_NON_LAZY_SYMBOL_POINTERS` and `HK_S_LAZY_SYMBOL_POINTERS`. -/
def sectionType : Nat := 0xff
def nonLazySymbolPointers : Nat := 0x06
def lazySymbolPointers : Nat := 0x07

/-- `HK_INDIRECT_SYMBOL_LOCAL` and `HK_INDIRECT_SYMBOL_ABS`. -/
def indirectSymbolLocal : Nat := 0x80000000
def indirectSymbolAbs : Nat := 0x40000000

/-- `HK_IMPORT_POINTER_SIZE`. -/
def importPointerSize : Nat := 8

/-- `hk_import_tables_t` with what it points to; a NULL pointer is `none`. -/
structure Tables where
  indirect : Option (List Byte)
  indirectCount : Nat
  symbols : TableView
  /-- The indirect table has as many entries as are counted. -/
  counted : ∀ bytes, indirect = some bytes → bytes.length = indirectCount * 4
  /-- The count is a `uint32_t`. -/
  count_lt : indirectCount < 2 ^ 32

/-- The tables when they are all there. -/
structure Contents where
  indirect : List Byte
  indirectCount : Nat
  nlist : List Nlist
  strings : List Byte

/-- `hk_import_slot_t`. -/
structure ImportSlot where
  nSect : Nat
  sectname : List Byte
  slotIndex : Nat
  slotVmaddr : Nat
  symtabIndex : Nat
  symbolName : List Byte
  isLazy : Bool
deriving DecidableEq, Repr

/-- The loop of `bounded_string`, over what is left of the table. -/
def terminated : List Byte → Option (List Byte)
  | [] => none
  | b :: rest => if b = 0 then some [] else (terminated rest).map (b :: ·)

/-- `bounded_string`. -/
def boundedString (strings : List Byte) (offset : Nat) : Option (List Byte) :=
  if offset ≥ strings.length then none else terminated (strings.drop offset)

/-- `slots_ctx_t`, less the tables and the visitor; nobody looks at `stopped`. -/
structure SlotsCtx (σ : Type) where
  ctx : σ
  malformed : Bool

variable {σ : Type}

/-- The loop of `slots_visit_section` over the slots of a section, from slot `i` on; `left` counts
them. -/
def walkSlots (c : Contents) (visit : σ → ImportSlot → Bool × σ) (nSect : Nat) (sect : MachoSection)
    (isLazy : Bool) : Nat → Nat → SlotsCtx σ → Option (Bool × SlotsCtx σ)
  | 0, _, s => some (true, s)
  | left + 1, i, s => do
    let entry ← readLE 4 c.indirect ((sect.reserved1 + i) * 4)
    if entry &&& (indirectSymbolLocal ||| indirectSymbolAbs) ≠ 0 then
      walkSlots c visit nSect sect isLazy left (i + 1) s
    else if entry ≥ c.nlist.length then some (false, { s with malformed := true })
    else do
      let sym ← c.nlist[entry]?
      match boundedString c.strings sym.strx with
      | none => some (false, { s with malformed := true })
      | some name =>
        let slot : ImportSlot := {
          nSect := nSect
          sectname := sect.sectname
          slotIndex := i % 2 ^ 32
          slotVmaddr := (sect.addr + i * importPointerSize) % 2 ^ 64
          symtabIndex := entry
          symbolName := name
          isLazy := isLazy }
        match visit s.ctx slot with
        | (false, ctx) => some (false, { s with ctx := ctx })
        | (true, ctx) => walkSlots c visit nSect sect isLazy left (i + 1) { s with ctx := ctx }

/-- `slots_visit_section`. -/
def slotsVisitSection (c : Contents) (visit : σ → ImportSlot → Bool × σ) (s : SlotsCtx σ)
    (nSect : Nat) (sect : MachoSection) : Option (Bool × SlotsCtx σ) :=
  let type := sect.flags &&& sectionType
  let isLazy := type == lazySymbolPointers
  if type ≠ nonLazySymbolPointers ∧ !isLazy then some (true, s)
  else if sect.size % importPointerSize ≠ 0 then some (false, { s with malformed := true })
  else
    let slotCount := sect.size / importPointerSize
    if sect.reserved1 + slotCount > c.indirectCount then some (false, { s with malformed := true })
    else walkSlots c visit nSect sect isLazy slotCount 0 s

/-- The visitor as the walk over the sections has it; `none` in the context once a table was read
outside. -/
def visitSection (c : Contents) (visit : σ → ImportSlot → Bool × σ) (s : Option (SlotsCtx σ))
    (nSect : Nat) (sect : MachoSection) : Bool × Option (SlotsCtx σ) :=
  match s.bind fun s ↦ slotsVisitSection c visit s nSect sect with
  | none => (false, none)
  | some (more, s) => (more, some s)

/-- The tables, unless there is nothing to walk. -/
def Tables.contents (t : Tables) : Option Contents :=
  match t.indirect, t.symbols.nlist, t.symbols.strings with
  | some indirect, some nlist, some strings =>
    if t.indirectCount = 0 then none else some ⟨indirect, t.indirectCount, nlist, strings⟩
  | _, _, _ => none

/-- `hk_import_slots_iterate`. -/
def slotsIterate (image : List Byte) (tables : Tables) (visit : σ → ImportSlot → Bool × σ) (s : σ) :
    Option (SlotsStatus × σ) :=
  match tables.contents with
  | none => some (.ok, s)
  | some c => do
    let (status, s) ← iterateSections image (visitSection c visit) (some ⟨s, false⟩)
    let s ← s
    if status ≠ .ok then some (.malformed, s.ctx)
    else some (if s.malformed then .malformed else .ok, s.ctx)

/-! ## The slots there are -/

/-- A section of lazy or of non-lazy symbol pointers. -/
def IsPointers (sect : MachoSection) : Prop :=
  sect.flags % 256 = nonLazySymbolPointers ∨ sect.flags % 256 = lazySymbolPointers

/-- An indirect entry that is marked local or absolute. -/
def Marked (entry : Nat) : Prop := entry.testBit 31 ∨ entry.testBit 30

/-- A terminated string stands at an offset of the string table. -/
def StringAt (strings : List Byte) (offset : Nat) (name : List Byte) : Prop :=
  0 ∉ name ∧ name ++ [0] <+: strings.drop offset

/-- Slot `i` of a section: nothing, when its indirect entry is marked, and else a slot that binds to
the symbol of its entry. -/
inductive SlotAt (c : Contents) (nSect : Nat) (sect : MachoSection) (i : Nat) :
    Option ImportSlot → Prop where
  | marked {entry : Nat} (read : readLE 4 c.indirect ((sect.reserved1 + i) * 4) = some entry)
    (marked : Marked entry) : SlotAt c nSect sect i none
  | named {entry : Nat} {sym : Nlist} {name : List Byte}
    (read : readLE 4 c.indirect ((sect.reserved1 + i) * 4) = some entry)
    (unmarked : ¬ Marked entry) (sym_eq : c.nlist[entry]? = some sym)
    (named : StringAt c.strings sym.strx name) :
    SlotAt c nSect sect i (some {
      nSect := nSect
      sectname := sect.sectname
      slotIndex := i
      slotVmaddr := (sect.addr + i * 8) % 2 ^ 64
      symtabIndex := entry
      symbolName := name
      isLazy := sect.flags % 256 = lazySymbolPointers })

/-- The slots of a section, in order. -/
inductive SectionSlots (c : Contents) (nSect : Nat) (sect : MachoSection) :
    List ImportSlot → Prop where
  | other (other : ¬ IsPointers sect) : SectionSlots c nSect sect []
  | pointers (pointers : IsPointers sect) (whole : sect.size % 8 = 0)
    (window : sect.reserved1 + sect.size / 8 ≤ c.indirectCount) {found : List (Option ImportSlot)}
    (each : List.Forall₂ (SlotAt c nSect sect) (List.range' 0 (sect.size / 8)) found) :
    SectionSlots c nSect sect (found.filterMap id)

/-- The slots of a row of sections, numbered from `n + 1` on. -/
inductive SlotsFrom (c : Contents) : Nat → List MachoSection → List ImportSlot → Prop where
  | nil (n : Nat) : SlotsFrom c n [] []
  | cons {n : Nat} {sect : MachoSection} {rest : List MachoSection} {own slots : List ImportSlot}
    (own_slots : SectionSlots c (n + 1) sect own) (rest_slots : SlotsFrom c (n + 1) rest slots) :
    SlotsFrom c n (sect :: rest) (own ++ slots)

/-- The import slots of the sections of an image. -/
def AllSlots (c : Contents) (sections : List MachoSection) (slots : List ImportSlot) : Prop :=
  SlotsFrom c 0 sections slots

/-! ## Names -/

theorem terminated_iff {bytes name : List Byte} :
    terminated bytes = some name ↔ 0 ∉ name ∧ name ++ [0] <+: bytes := by
  induction bytes generalizing name with
  | nil => simp [terminated]
  | cons b rest ih =>
    rw [terminated]
    by_cases hb : b = 0
    · subst hb
      rw [if_pos rfl, Option.some.injEq]
      cases name with
      | nil => simp
      | cons c name =>
        refine iff_of_false nofun fun ⟨hmem, hstarts⟩ ↦ ?_
        rw [List.cons_append, List.cons_prefix_cons] at hstarts
        exact hmem (hstarts.1 ▸ List.mem_cons_self)
    · rw [if_neg hb, Option.map_eq_some_iff]
      cases name with
      | nil =>
        refine iff_of_false (fun ⟨_, _, heq⟩ ↦ nomatch heq) fun ⟨_, hstarts⟩ ↦ hb ?_
        rw [List.nil_append, List.cons_prefix_cons] at hstarts
        exact hstarts.1.symm
      | cons c name =>
        rw [List.cons_append, List.cons_prefix_cons, List.mem_cons, not_or]
        constructor
        · rintro ⟨name', hname, heq⟩
          cases heq
          obtain ⟨hmem, hstarts⟩ := ih.mp hname
          exact ⟨⟨Ne.symm hb, hmem⟩, rfl, hstarts⟩
        · rintro ⟨⟨-, hmem⟩, rfl, hstarts⟩
          exact ⟨name, ih.mpr ⟨hmem, hstarts⟩, rfl⟩

theorem boundedString_iff {strings name : List Byte} {offset : Nat} :
    boundedString strings offset = some name ↔ StringAt strings offset name := by
  rw [boundedString, StringAt]
  split
  · rename_i hout
    rw [List.drop_eq_nil_of_le hout, List.prefix_nil]
    exact iff_of_false nofun fun h ↦ List.append_ne_nil_of_right_ne_nil _ (List.cons_ne_nil _ _) h.2
  · exact terminated_iff

theorem marked_iff (entry : Nat) :
    entry &&& (indirectSymbolLocal ||| indirectSymbolAbs) ≠ 0 ↔ Marked entry := by
  rw [Nat.and_or_distrib_left, Ne, Nat.or_eq_zero_iff, not_and_or, Marked,
    show indirectSymbolLocal = 2 ^ 31 by rfl, show indirectSymbolAbs = 2 ^ 30 by rfl,
    Nat.and_two_pow, Nat.and_two_pow]
  cases entry.testBit 31 <;> cases entry.testBit 30 <;> decide

/-! ## One section -/

variable {c : Contents} {nSect : Nat} {sect : MachoSection} {note : σ → ImportSlot → σ}

/-- The visitor of a caller that never stops. -/
def always (note : σ → ImportSlot → σ) (s : σ) (slot : ImportSlot) : Bool × σ := (true, note s slot)

theorem SlotAt.unique {i : Nat} {o o' : Option ImportSlot} (h : SlotAt c nSect sect i o)
    (h' : SlotAt c nSect sect i o') : o = o' := by
  cases h with
  | marked read marked =>
    cases h' with
    | marked => rfl
    | named read' unmarked =>
      cases read.symm.trans read'
      exact absurd marked unmarked
  | named read unmarked sym named =>
    cases h' with
    | marked read' marked =>
      cases read.symm.trans read'
      exact absurd marked unmarked
    | named read' _ sym' named' =>
      cases read.symm.trans read'
      cases sym.symm.trans sym'
      cases (boundedString_iff.mpr named).symm.trans (boundedString_iff.mpr named')
      rfl

/-- What walks over slots come to: the slots are visited, or there are none such and the walk ends
with a malformed image. -/
def Outcome (note : σ → ImportSlot → σ) (s : σ) (slots : List ImportSlot → Prop)
    (r : Bool × SlotsCtx σ) : Prop :=
  (∃ found, slots found ∧ r = (true, ⟨found.foldl note s, false⟩)) ∨
    ((¬ ∃ found, slots found) ∧ r.1 = false ∧ r.2.malformed = true)

theorem walkSlots_spec (hcounted : c.indirect.length = c.indirectCount * 4)
    (hcount : c.indirectCount < 2 ^ 32) (left i : Nat)
    (hwindow : sect.reserved1 + (i + left) ≤ c.indirectCount) (s : σ) :
    Safe (walkSlots c (always note) nSect sect (sect.flags % 256 = lazySymbolPointers) left i
      ⟨s, false⟩) (Outcome note s fun slots ↦ ∃ found,
        List.Forall₂ (SlotAt c nSect sect) (List.range' i left) found ∧ slots =
        found.filterMap id) := by
  induction left generalizing i s with
  | zero => exact .some (.inl ⟨[], ⟨[], .nil, rfl⟩, rfl⟩)
  | succ left ih =>
    rw [walkSlots, List.range'_succ]
    refine .step (.read (by omega)) fun entry hentry _ ↦ ?_
    -- a slot that is not there ends the walk, and no row of slots starts with it
    have hnone : ∀ (ctx : σ), (∀ o, ¬ SlotAt c nSect sect i o) →
        Outcome note s (fun slots ↦ ∃ found, List.Forall₂ (SlotAt c nSect sect)
          (i :: List.range' (i + 1) left) found ∧ slots = found.filterMap id)
            (false, ⟨ctx, true⟩) := by
      refine fun ctx hnot ↦ .inr ⟨?_, rfl, rfl⟩
      rintro ⟨_, found, hfound, -⟩
      cases hfound with
      | cons hfirst _ => exact hnot _ hfirst
    -- and one that is there comes first in every row
    have hsome : ∀ {o s' r}, SlotAt c nSect sect i o → s' = o.toList.foldl note s →
        Outcome note s' (fun slots ↦ ∃ found, List.Forall₂ (SlotAt c nSect sect)
          (List.range' (i + 1) left) found ∧ slots = found.filterMap id) r →
        Outcome note s (fun slots ↦ ∃ found, List.Forall₂ (SlotAt c nSect sect)
          (i :: List.range' (i + 1) left) found ∧ slots = found.filterMap id) r := by
      rintro o s' r hslot rfl (⟨_, ⟨found, hfound, rfl⟩, rfl⟩ | ⟨hnot, hstop⟩)
      · refine .inl ⟨_, ⟨o :: found, .cons hslot hfound, rfl⟩, ?_⟩
        cases o <;> rfl
      · refine .inr ⟨?_, hstop⟩
        rintro ⟨_, found, hfound, rfl⟩
        cases hfound with
        | cons _ hrest => exact hnot ⟨_, _, hrest, rfl⟩
    by_cases hmarked : Marked entry
    · rw [if_pos ((marked_iff entry).mpr hmarked)]
      exact (ih (i + 1) (by omega) s).mono fun r ↦ hsome (.marked hentry hmarked) rfl
    · rw [if_neg (mt (marked_iff entry).mp hmarked)]
      refine .ite (fun hout ↦ .some (hnone s fun o ho ↦ ?_)) fun hin ↦ ?_
      · cases ho with
        | marked read marked =>
          cases hentry.symm.trans read
          exact hmarked marked
        | named read _ sym _ =>
          cases hentry.symm.trans read
          rw [List.getElem?_eq_none hout] at sym
          cases sym
      · rw [Nat.not_le] at hin
        rw [List.getElem?_eq_getElem hin, Option.bind_eq_bind, Option.bind_some]
        cases hname : boundedString c.strings (c.nlist[entry]).strx with
        | none =>
          refine .some (hnone s fun o ho ↦ ?_)
          cases ho with
          | marked read marked =>
            cases hentry.symm.trans read
            exact hmarked marked
          | named read _ sym named =>
            cases hentry.symm.trans read
            rw [List.getElem?_eq_getElem hin] at sym
            cases sym
            rw [← boundedString_iff, hname] at named
            cases named
        | some name =>
          have hslot := @SlotAt.named c nSect sect i _ _ _ hentry hmarked
            (List.getElem?_eq_getElem hin) (boundedString_iff.mp hname)
          refine (ih (i + 1) (by omega) _).mono fun r ↦ hsome hslot ?_
          rw [Nat.mod_eq_of_lt (show i < 2 ^ 32 by omega)]
          rfl

theorem isPointers_iff (sect : MachoSection) : IsPointers sect ↔
    ¬ (sect.flags &&& sectionType ≠ nonLazySymbolPointers ∧
      !(sect.flags &&& sectionType == lazySymbolPointers)) := by
  rw [IsPointers, show sectionType = 2 ^ 8 - 1 by rfl, Nat.and_two_pow_sub_one_eq_mod]
  simp only [Bool.not_eq_true', beq_eq_false_iff_ne]
  tauto

theorem slotsVisitSection_spec (hcounted : c.indirect.length = c.indirectCount * 4)
    (hcount : c.indirectCount < 2 ^ 32) (s : σ) :
    Safe (slotsVisitSection c (always note) ⟨s, false⟩ nSect sect)
      (Outcome note s (SectionSlots c nSect sect)) := by
  -- a section of pointers that does not fit has no slots
  have hnone : IsPointers sect → ¬ (sect.size % 8 = 0 ∧
      sect.reserved1 + sect.size / 8 ≤ c.indirectCount) →
        Outcome note s (SectionSlots c nSect sect) (false, ⟨s, true⟩) := by
    refine fun hpointers hnot ↦ .inr ⟨?_, rfl, rfl⟩
    rintro ⟨_, hother | ⟨-, hwhole, hwindow, -⟩⟩
    · exact hother hpointers
    · exact hnot ⟨hwhole, hwindow⟩
  rw [slotsVisitSection]
  refine .ite (fun hother ↦ .some (.inl ⟨[], .other fun h ↦ ?_, rfl⟩)) fun hpointers ↦ ?_
  · exact (isPointers_iff sect).mp h hother
  rw [← isPointers_iff] at hpointers
  refine .ite (fun hodd ↦ .some (hnone hpointers fun h ↦ hodd h.1)) fun hwhole ↦ ?_
  refine .ite (fun hbig ↦ .some (hnone hpointers fun h ↦ ?_)) fun hwindow ↦ ?_
  · exact absurd h.2 (Nat.not_le.mpr hbig)
  rw [not_not] at hwhole
  rw [Nat.not_lt] at hwindow
  have hlazy : (sect.flags &&& sectionType == lazySymbolPointers) =
      decide (sect.flags % 256 = lazySymbolPointers) := by
    rw [show sectionType = 2 ^ 8 - 1 by rfl, Nat.and_two_pow_sub_one_eq_mod]
    rfl
  rw [hlazy]
  refine (walkSlots_spec hcounted hcount _ 0 (by rwa [Nat.zero_add]) s).mono fun r hr ↦ ?_
  rcases hr with ⟨_, ⟨found, hfound, rfl⟩, heq⟩ | ⟨hnot, hstop⟩
  · exact .inl ⟨_, .pointers hpointers hwhole hwindow hfound, heq⟩
  · refine .inr ⟨?_, hstop⟩
    rintro ⟨_, hother | ⟨-, -, -, hfound⟩⟩
    · exact hother hpointers
    · exact hnot ⟨_, _, hfound, rfl⟩

/-! ## All sections -/

theorem visitSection_of {s : SlotsCtx σ} {n : Nat} {r : Bool × SlotsCtx σ}
    {visit : σ → ImportSlot → Bool × σ} (h : slotsVisitSection c visit s n sect = some r) :
    visitSection c visit (some s) n sect = (r.1, some r.2) := by
  rw [visitSection, Option.bind_some, h]

/-- The sections one after the other, from section `n + 1` on: no table is read outside, and up to
the limit all slots are visited. -/
theorem visitSections_spec (hcounted : c.indirect.length = c.indirectCount * 4)
    (hcount : c.indirectCount < 2 ^ 32) (l : List MachoSection) (n : Nat) (s : σ) :
    ∃ r : Bool × SlotsCtx σ,
      visitAll (numbered (visitSection c (always note))) n l (some ⟨s, false⟩) = (r.1, some r.2) ∧
        (n + l.length ≤ 255 → Outcome note s (SlotsFrom c n l) (!r.1, r.2)) := by
  induction l generalizing n s with
  | nil => exact ⟨(false, ⟨s, false⟩), rfl, fun _ ↦ .inl ⟨[], .nil n, rfl⟩⟩
  | cons sect rest ih =>
    by_cases hlimit : n + 1 > 0xff
    · refine ⟨(true, ⟨s, false⟩), ?_, fun hlength ↦ ?_⟩
      · exact visitAll_cons_stop (by rw [numbered, if_pos hlimit]) rest
      · rw [List.length_cons] at hlength
        omega
    · obtain ⟨r, heq, hr⟩ := @slotsVisitSection_spec _ c (n + 1) sect note hcounted hcount s
      have hvisit : numbered (visitSection c (always note)) (some ⟨s, false⟩) n sect =
          (r.1, some r.2) := by
        rw [numbered, if_neg hlimit, visitSection_of heq]
      rcases hr with ⟨own, hown, rfl⟩ | ⟨hnot, hstop, hmalformed⟩
      · obtain ⟨r', heq', hr'⟩ := ih (n + 1) (own.foldl note s)
        refine ⟨r', by rw [visitAll_cons_next hvisit, heq'], fun hlength ↦ ?_⟩
        rw [List.length_cons] at hlength
        rcases hr' (by omega) with ⟨slots, hslots, hend⟩ | ⟨hnot, hstop⟩
        · exact .inl ⟨own ++ slots, .cons hown hslots, by rw [hend, List.foldl_append]⟩
        · refine .inr ⟨?_, hstop⟩
          rintro ⟨_, hslots⟩
          cases hslots with
          | cons _ hrest => exact hnot ⟨_, hrest⟩
      · rw [hstop] at hvisit
        refine ⟨(true, r.2), visitAll_cons_stop hvisit rest, fun _ ↦ .inr ⟨?_, rfl, hmalformed⟩⟩
        rintro ⟨_, hslots⟩
        cases hslots with
        | cons hown _ => exact hnot ⟨_, hown⟩

theorem Tables.contents_spec {tables : Tables} (h : tables.contents = some c) :
    c.indirect.length = c.indirectCount * 4 ∧ c.indirectCount < 2 ^ 32 := by
  rw [contents] at h
  split at h
  · rename_i hindirect _ _
    split at h
    · cases h
    · cases h
      exact ⟨tables.counted _ hindirect, tables.count_lt⟩
  · cases h

/-- An image of one section with one non-lazy pointer, and an indirect symbol table with its entry,
but without a symbol table. -/
def noSymtab : List Byte :=
  littleEndian 4 mhMagic64 ++ littleEndian 4 0x0100000c ++ littleEndian 4 0 ++ littleEndian 4 2 ++
    littleEndian 4 2 ++ littleEndian 4 232 ++ littleEndian 8 0 ++
    (littleEndian 4 lcSegment64 ++ littleEndian 4 152 ++ littleEndian 16 0 ++
      littleEndian 8 0x4000 ++ littleEndian 8 0x1000 ++ littleEndian 16 0 ++ littleEndian 8 0 ++
      littleEndian 4 1 ++ littleEndian 4 0 ++
      (littleEndian 32 0 ++ littleEndian 8 0x4000 ++ littleEndian 8 8 ++ littleEndian 16 0 ++
        littleEndian 4 nonLazySymbolPointers ++ littleEndian 12 0)) ++
    (littleEndian 4 lcDysymtab ++ littleEndian 4 80 ++ littleEndian 48 0 ++ littleEndian 4 264 ++
      littleEndian 4 1 ++ littleEndian 16 0) ++
    littleEndian 4 0

/-- Its tables. -/
def noSymtabTables : Tables where
  indirect := some (littleEndian 4 0)
  indirectCount := 1
  symbols := ⟨none, none⟩
  counted := by rintro _ ⟨⟩; rfl
  count_lt := by decide

end HookKit.ImportSlots
