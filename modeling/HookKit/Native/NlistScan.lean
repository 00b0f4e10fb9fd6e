import HookKit.Resolvers.SymbolTable

/-!
# The native scan of a symbol table

`find_nlist_symbol` of `hk_symbols.c`, beside `hk_symbol_table_find`.  The native scan compares
names with `strcmp`, which does not know where the pool of strings ends, and it has no test for
debugger entries.

* `findNlistSymbol` — the scan; `none` where it reads an entry behind the table, or a string behind
  the pool.
* `findNlistFrom_eq`, `findFrom_eq` — at which entry each scan stops.
* `scanners_agree_iff` — when both find the same value.
-/

set_option autoImplicit false

namespace HookKit.NlistScan

open CachePatches SymbolTable

/-! ## The scan -/

/-- A name to look up: a C string other than the empty one, which the callers refuse. -/
structure SymbolName where
  text : CString
  ne_nil : text ≠ []
  no_nul : 0#8 ∉ text

/-- `hk_image`, less the mapping and the handle it owns: `nlist` is what the table has from the
image's first entry on, and the flags of the sections are `[]` for a NULL pointer. -/
structure Image where
  slide : UIntPtr
  nlist : Option (List Nlist)
  nlistCount : Nat
  strings : Option (List Byte)
  sectFlags : List (BitVec 32)
deriving DecidableEq

/-- What `find_nlist_symbol` returns, and what it stores at `out_raw_value`. -/
structure NativeSymbol where
  address : UIntPtr
  rawValue : Nat
deriving DecidableEq

/-- `strcmp(entry, name) == 0`; the first argument is what the pool has from `entry` on. -/
def strcmpEq : List Byte → CString → Option Bool
  | [], _ => none
  | c :: _, [] => some (c = 0)
  | c :: rest, n :: name => if c = n then strcmpEq rest name else some false

/-- `symbol_matches`. -/
def symbolMatches (entry : List Byte) (name : CString) : Option Bool :=
  match strcmpEq entry name with
  | none => none
  | some true => some true
  | some false => if entry.head? = some underscore then strcmpEq entry.tail name else some false

/-- `S_ATTR_PURE_INSTRUCTIONS | S_ATTR_SOME_INSTRUCTIONS`. -/
def sectionInstructions : BitVec 32 := 0x80000400

/-- The address for an entry; signed, if it lies in a section of code. -/
def nativeSymbol (pac : Pac) (image : Image) (symbol : Nlist) : NativeSymbol :=
  let addr := BitVec.ofNat 64 symbol.value + image.slide
  let code := symbol.sect > 0 ∧ symbol.sect ≤ image.sectFlags.length ∧
    image.sectFlags.getD (symbol.sect - 1) 0 &&& sectionInstructions ≠ 0
  ⟨if code then pac.makeCallable (pac.stripCode addr) else addr, symbol.value⟩

/-- The loop of `find_nlist_symbol`, with the number of entries that are left. -/
def findNlistFrom (pac : Pac) (image : Image) (strings : List Byte) (name : CString) :
    List Nlist → Nat → Option (Option NativeSymbol)
  | _, 0 => some none
  | [], _ + 1 => none
  | symbol :: rest, count + 1 =>
    if symbol.strx = 0 ∨ symbol.strx ≥ strings.length then
      findNlistFrom pac image strings name rest count
    else if symbol.type &&& nType ≠ nSect ∨ symbol.value = 0 then
      findNlistFrom pac image strings name rest count
    else
      match symbolMatches (strings.drop symbol.strx) name with
      | none => none
      | some true => some (some (nativeSymbol pac image symbol))
      | some false => findNlistFrom pac image strings name rest count

/-- `find_nlist_symbol`. -/
def findNlistSymbol (pac : Pac) (image : Image) (name : CString) : Option (Option NativeSymbol) :=
  match image.nlist, image.strings with
  | some nlist, some strings => findNlistFrom pac image strings name nlist image.nlistCount
  | _, _ => some none

/-! ## Names in a pool -/

section Pool

variable {strings : List Byte} {name : CString} {offset : Nat}

/-- Reading the string at `offset` for `name` goes behind the pool. -/
def RunsOff (strings : List Byte) (name : CString) (offset : Nat) : Prop :=
  strings.drop offset <+: name ∨
    strings[offset]? = some underscore ∧ strings.drop (offset + 1) <+: name

instance : Decidable (RunsOff strings name offset) := inferInstanceAs (Decidable (_ ∨ _ ∧ _))

theorem strcmpEq_eq (entry : List Byte) (name : CString) :
    strcmpEq entry name = if entry <+: name then none else some (boundedEquals entry name) := by
  induction entry generalizing name with
  | nil => simp [strcmpEq]
  | cons c rest ih =>
    cases name with
    | nil => simp [strcmpEq, boundedEquals]
    | cons n name =>
      simp only [strcmpEq, boundedEquals, List.cons_prefix_cons]
      by_cases hc : c = n
      · simp [hc, ih]
      · simp [hc]

/-- A string that spells the name ends inside the pool, behind the name. -/
theorem mem_nul_of_boundedEquals {entry : List Byte} (h : boundedEquals entry name = true) :
    0#8 ∈ entry.drop name.length := by
  induction entry generalizing name with
  | nil => cases name <;> simp [boundedEquals] at h
  | cons c rest ih =>
    cases name with
    | nil =>
      simp only [boundedEquals, decide_eq_true_eq] at h
      simp [h]
    | cons n name =>
      simp only [boundedEquals, Bool.and_eq_true, decide_eq_true_eq] at h
      simpa using ih h.2

theorem drop_cons_tail (strings : List Byte) (offset : Nat) :
    (strings.drop offset).tail = strings.drop (offset + 1) := by
  rw [List.tail_drop]

theorem boundedStringEquals_eq (strings : List Byte) (offset : Nat) (name : CString) :
    boundedStringEquals strings offset name = boundedEquals (strings.drop offset) name := by
  rw [boundedStringEquals]
  split
  · rename_i h
    rw [List.drop_eq_nil_of_le h]
    cases name <;> rfl
  · rfl

/-- Where the native comparison is defined, it is that of the table. -/
theorem symbolMatches_eq (name : SymbolName) (strings : List Byte) (offset : Nat) :
    symbolMatches (strings.drop offset) name.text =
      if RunsOff strings name.text offset then none
      else some (nameMatches strings offset name.text .c) := by
  simp only [symbolMatches, strcmpEq_eq, RunsOff, nameMatches, boundedStringEquals_eq,
    List.head?_drop, drop_cons_tail]
  by_cases hfirst : strings.drop offset <+: name.text
  · simp [hfirst]
  · rw [if_neg hfirst]
    cases hequal : boundedEquals (strings.drop offset) name.text with
    | true =>
      have htail : ¬ strings.drop (offset + 1) <+: name.text := by
        intro h
        have hmem := mem_nul_of_boundedEquals hequal
        rw [List.drop_drop] at hmem
        have hle : offset + 1 ≤ offset + name.text.length := by
          have := List.length_pos_iff.mpr name.ne_nil
          omega
        exact name.no_nul (h.subset ((List.drop_subset_drop_left strings hle) hmem))
      simp [hfirst, htail]
    | false =>
      by_cases hunder : strings[offset]? = some underscore
      · by_cases hsecond : strings.drop (offset + 1) <+: name.text
        · simp [hunder, hsecond]
        · simp [hfirst, hunder, hsecond]
      · simp [hfirst, hunder]

end Pool

/-! ## Where the scans stop -/

section Scans

variable {strings : List Byte} {name : SymbolName}

/-- An entry that defines a symbol in a section and has a name in the pool, as far as the native
scan looks. -/
def Candidate (strings : List Byte) (e : Nlist) : Prop :=
  e.strx ≠ 0 ∧ e.strx < strings.length ∧ e.type &&& nType = nSect ∧ e.value ≠ 0

/-- An entry for the debugger. -/
def Debugger (e : Nlist) : Prop := e.type &&& nStab ≠ 0

/-- The string of the entry spells the name, with the linker's underscore or without. -/
def Spells (strings : List Byte) (name : SymbolName) (e : Nlist) : Prop :=
  nameMatches strings e.strx name.text .c = true

/-- The native scan does not get past the entry. -/
def Stops (strings : List Byte) (name : SymbolName) (e : Nlist) : Prop :=
  Candidate strings e ∧ (RunsOff strings name.text e.strx ∨ Spells strings name e)

/-- The search of the table accepts the entry. -/
def Defines (strings : List Byte) (name : SymbolName) (e : Nlist) : Prop :=
  Candidate strings e ∧ ¬ Debugger e ∧ Spells strings name e

instance (e : Nlist) : Decidable (Candidate strings e) :=
    inferInstanceAs (Decidable (_ ∧ _ ∧ _ ∧ _))

instance (e : Nlist) : Decidable (Debugger e) := inferInstanceAs (Decidable (_ ≠ _))

instance (e : Nlist) : Decidable (Spells strings name e) := inferInstanceAs (Decidable (_ = true))

instance (e : Nlist) : Decidable (Stops strings name e) := inferInstanceAs (Decidable (_ ∧ (_ ∨ _)))

instance (e : Nlist) : Decidable (Defines strings name e) := inferInstanceAs (Decidable (_ ∧ _ ∧ _))

/-- One entry of the native scan. -/
theorem findNlistFrom_cons (pac : Pac) (image : Image) (e : Nlist)
    (rest : List Nlist) (count : Nat) :
    findNlistFrom pac image strings name.text (e :: rest) (count + 1) =
      if Stops strings name e then
        if RunsOff strings name.text e.strx then none else some (some (nativeSymbol pac image e))
      else findNlistFrom pac image strings name.text rest count := by
  rw [findNlistFrom]
  by_cases hcand : Candidate strings e
  · obtain ⟨hstrx, hlen, htype, hvalue⟩ := hcand
    rw [if_neg (by simp [hstrx, hlen]), if_neg (by simp [htype, hvalue]), symbolMatches_eq]
    by_cases hruns : RunsOff strings name.text e.strx
    · have hstops : Stops strings name e := ⟨⟨hstrx, hlen, htype, hvalue⟩, .inl hruns⟩
      simp [hruns, hstops]
    · by_cases hspells : Spells strings name e
      · have hstops : Stops strings name e := ⟨⟨hstrx, hlen, htype, hvalue⟩, .inr hspells⟩
        have hmatch : nameMatches strings e.strx name.text .c = true := hspells
        simp [hruns, hstops, hmatch]
      · have hstops : ¬ Stops strings name e := fun h ↦ h.2.elim hruns hspells
        have hmatch : nameMatches strings e.strx name.text .c = false := by
          simpa [Spells] using hspells
        simp [hruns, hstops, hmatch]
  · rw [if_neg fun h : Stops strings name e ↦ hcand h.1]
    split
    · rfl
    · rename_i hname
      split
      · rfl
      · rename_i htype
        obtain ⟨hstrx, hlen⟩ := not_or.mp hname
        obtain ⟨htype, hvalue⟩ := not_or.mp htype
        exact absurd ⟨hstrx, not_le.mp hlen, not_not.mp htype, hvalue⟩ hcand

/-- The native scan stops at the first entry it does not get past. -/
theorem findNlistFrom_eq (pac : Pac) (image : Image) (nlist : List Nlist) :
    findNlistFrom pac image strings name.text nlist nlist.length =
      match nlist.find? (fun e ↦ Stops strings name e) with
      | none => some none
      | some e =>
        if RunsOff strings name.text e.strx then none
        else some (some (nativeSymbol pac image e)) := by
  induction nlist with
  | nil => rfl
  | cons e rest ih =>
    rw [List.length_cons, findNlistFrom_cons, List.find?_cons]
    by_cases hstops : Stops strings name e
    · simp [hstops]
    · simp [hstops, ih]

/-- A name is found inside the pool only. -/
theorem Spells.lt {e : Nlist} (h : Spells strings name e) : e.strx < strings.length := by
  by_contra hge
  simp [Spells, nameMatches, boundedStringEquals, not_lt.mp hge] at h

/-- The search of the table finds the first entry it accepts. -/
theorem findFrom_eq (nlist : List Nlist) (i : Nat) :
    (findFrom strings ⟨name.text, .c, .any⟩ nlist i).map (·.value) =
      (nlist.find? fun e ↦ Defines strings name e).map (·.value) := by
  induction nlist generalizing i with
  | nil => rfl
  | cons e rest ih =>
    rw [findFrom, List.find?_cons]
    by_cases hdef : Defines strings name e
    · obtain ⟨⟨hstrx, hlen, htype, hvalue⟩, hdebug, hspells⟩ := id hdef
      have hmatch : nameMatches strings e.strx name.text .c = true := hspells
      have hstab : e.type &&& nStab = 0 := not_not.mp hdebug
      simp [hdef, hstab, htype, hvalue, hstrx, visibilityPermits, hmatch]
    · simp only [hdef, decide_false]
      split
      · exact ih (i + 1)
      split
      · exact ih (i + 1)
      split
      · exact ih (i + 1)
      split
      · exact ih (i + 1)
      split
      · exact ih (i + 1)
      rename_i hstab htype hstrx hvisible hmatch
      obtain ⟨htype, hvalue⟩ := not_or.mp htype
      have hspells : nameMatches strings e.strx name.text .c = true := by simpa using hmatch
      replace hspells : Spells strings name e := hspells
      exact absurd ⟨⟨hstrx, hspells.lt, not_not.mp htype, hvalue⟩, hstab, hspells⟩ hdef

/-! ## Agreement -/

/-- The native scan of a whole table and the search of the table lead to the same value, or both to
none. -/
def SameValue (pac : Pac) (slide : UIntPtr) (sectFlags : List (BitVec 32)) (nlist : List Nlist)
    (strings : List Byte) (name : SymbolName) : Prop :=
  ∃ found, findNlistSymbol pac
    ⟨slide, some nlist, nlist.length, some strings, sectFlags⟩ name.text =
      some found ∧
    found.map (·.rawValue) =
      (symbolTableFind ⟨some nlist, some strings⟩ ⟨name.text, .c, .any⟩).map (·.value)

/-- The first entry that looks like a symbol of the name, or whose string runs off the pool before
it differs from the name, has a string that ends and is not for the debugger; or, where it is, the
first other symbol of the name has the same value. -/
def Unambiguous (nlist : List Nlist) (strings : List Byte) (name : SymbolName) : Prop :=
  ∀ e, nlist.find? (fun e ↦ Stops strings name e) = some e →
    ¬ RunsOff strings name.text e.strx ∧
      (Debugger e → ∃ d, nlist.find? (fun e ↦ Defines strings name e) = some d ∧ d.value = e.value)

theorem symbolTableFind_eq (nlist : List Nlist) :
    (symbolTableFind ⟨some nlist, some strings⟩ ⟨name.text, .c, .any⟩).map (·.value) =
      (nlist.find? fun e ↦ Defines strings name e).map (·.value) := by
  simp only [symbolTableFind, if_neg name.ne_nil]
  split
  · rename_i hempty
    have hnone : nlist.find? (fun e ↦ Defines strings name e) = none :=
      List.find?_eq_none.mpr fun e _ h ↦ by
        have hlt := (of_decide_eq_true h : Defines strings name e).1.2.1
        omega
    rw [hnone]
    rfl
  · exact findFrom_eq nlist 0

/-- What one search accepts first, if it accepts less than the other. -/
theorem find?_of_imp {α : Type} {p q : α → Bool} {l : List α} {x : α} (h : l.find? p = some x)
    (hq : q x = true) (himp : ∀ y, q y = true → p y = true) : l.find? q = some x := by
  obtain ⟨-, before, after, rfl, hbefore⟩ := List.find?_eq_some_iff_append.mp h
  refine List.find?_eq_some_iff_append.mpr ⟨hq, before, after, rfl, fun y hy ↦ ?_⟩
  have hp := hbefore y hy
  cases hqy : q y with
  | false => rfl
  | true => simp [himp y hqy] at hp

theorem Defines.stops {e : Nlist} (h : Defines strings name e) : Stops strings name e :=
  ⟨h.1, .inr h.2.2⟩

/-- **The scanners agree exactly on unambiguous names.** -/
theorem scanners_agree_iff (pac : Pac) (slide : UIntPtr) (sectFlags : List (BitVec 32))
    (nlist : List Nlist) (strings : List Byte) (name : SymbolName) :
    SameValue pac slide sectFlags nlist strings name ↔ Unambiguous nlist strings name := by
  rw [SameValue, symbolTableFind_eq, findNlistSymbol]
  simp only [findNlistFrom_eq]
  cases hstop : nlist.find? (fun e ↦ Stops strings name e) with
  | none =>
    have hnone : nlist.find? (fun e ↦ Defines strings name e) = none :=
      List.find?_eq_none.mpr fun e he h ↦
        List.find?_eq_none.mp hstop e he
          (decide_eq_true (of_decide_eq_true h : Defines _ _ e).stops)
    refine iff_of_true ⟨none, rfl, by rw [hnone]; rfl⟩ fun e he ↦ ?_
    rw [hstop] at he
    cases he
  | some e =>
    dsimp only
    have hstops : Stops strings name e := by simpa using List.find?_some hstop
    by_cases hruns : RunsOff strings name.text e.strx
    · rw [if_pos hruns]
      refine iff_of_false (fun ⟨_, h, _⟩ ↦ nomatch h) fun h ↦ (h e hstop).1 hruns
    · rw [if_neg hruns]
      have hspells : Spells strings name e := hstops.2.resolve_left hruns
      have hvalue :
          (∃ found, some (some (nativeSymbol pac ⟨slide, some nlist, nlist.length, some strings,
            sectFlags⟩ e)) = some found ∧ found.map (·.rawValue) =
              (nlist.find? fun e ↦ Defines strings name e).map (·.value)) ↔
          ∃ d, nlist.find? (fun e ↦ Defines strings name e) = some d ∧ d.value = e.value := by
        cases hdef : nlist.find? (fun e ↦ Defines strings name e) with
        | none => simp
        | some d => simp [nativeSymbol, eq_comm]
      rw [hvalue]
      constructor
      · rintro h e' he'
        cases hstop.symm.trans he'
        exact ⟨hruns, fun _ ↦ h⟩
      · intro h
        by_cases hdebug : Debugger e
        · exact (h e hstop).2 hdebug
        · have hdef : Defines strings name e := ⟨hstops.1, hdebug, hspells⟩
          exact ⟨e, find?_of_imp hstop (decide_eq_true hdef) fun y hy ↦
            decide_eq_true (of_decide_eq_true hy : Defines _ _ y).stops, rfl⟩

/-- The name `f`. -/
def nameF : SymbolName := ⟨[0x66#8], by decide, by decide⟩

/-- A table with nothing but the beginning of a block for the debugger, named `_f`. -/
theorem debugger_entry_found : ¬ SameValue .plain 0 [] [⟨1, 0x2e, 1, 0x1000⟩]
    [0, 0x5f, 0x66, 0] nameF := by
  rintro ⟨found, hfound, hvalue⟩
  have hnative :
      findNlistSymbol .plain ⟨0, some [⟨1, 0x2e, 1, 0x1000⟩], 1, some [0, 0x5f, 0x66, 0], []⟩
      nameF.text = some (some ⟨0x1000, 0x1000⟩) := by decide
  cases hnative.symm.trans hfound
  exact absurd hvalue (by decide)

end Scans

end HookKit.NlistScan
