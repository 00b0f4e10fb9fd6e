import HookKit.Core.Base
import HookKit.Lib.Leb128
import HookKit.Lib.PrefixTree

/-!
# The export trie

`HKExportTrie.c`: the walk down the prefix tree in which an image lists its exports.

* `readUleb128`, `decodeTerminal`, `findEdge`, `exportTrieFind` — the functions of the file.
* `Export.EncodedAt`, `EncodedAt` — what it means that bytes encode an export and a whole tree.
* `readUleb128_iff` — the number reader accepts exactly the encodings.
* `exportTrieFind_eq` — the walk looks the name up in the map the tree stands for.
-/

set_option autoImplicit false

namespace HookKit.ExportTrie

/-- `hk_export_status_t`. -/
inductive ExportStatus where
  | ok | notFound | malformed | invalidArgument | unsupportedKind
deriving DecidableEq, Repr

/-- `hk_export_symbol_t`. -/
structure ExportSymbol where
  flags : Nat
  address : Nat
  other : Nat
  isWeak : Bool
  isThreadLocal : Bool
  isAbsolute : Bool
  isReexport : Bool
  isStubAndResolver : Bool
deriving DecidableEq, Repr

/-- A symbol after `memset`. -/
def ExportSymbol.zero : ExportSymbol where
  flags := 0
  address := 0
  other := 0
  isWeak := false
  isThreadLocal := false
  isAbsolute := false
  isReexport := false
  isStubAndResolver := false

/-! ## The walk -/

/-- The loop of `hk_export_read_uleb128`; `left` counts the bytes that may still be read. -/
def readUleb128Loop (buffer : List Byte) (size : Nat) : Nat → Nat → Nat → Nat → Option (Nat × Nat)
  | 0, _, _, _ => none
  | left + 1, offset, shift, result =>
    if offset ≥ size then none
    else
      match buffer[offset]? with
      | none => none
      | some byte =>
        let chunk := (byte &&& 0x7f#8).toNat
        -- at shift 63 only one bit still fits
        if shift = 63 ∧ chunk > 1 then none
        else if shift ≥ 64 ∧ chunk ≠ 0 then none
        else
          let result := if shift < 64 then result ||| chunk <<< shift % 2 ^ 64 else result
          if byte &&& 0x80#8 = 0#8 then some (result, offset + 1)
          else readUleb128Loop buffer size left (offset + 1) (shift + 7) result

/-- `hk_export_read_uleb128`: the number and the offset behind it. -/
def readUleb128 (buffer : List Byte) (size offset : Nat) : Option (Nat × Nat) :=
  readUleb128Loop buffer size 10 offset 0 0

/-- `decode_terminal`; a terminal has to stay inside its own declared size. -/
def decodeTerminal (trie : List Byte) (offset terminalEnd : Nat) (out : ExportSymbol) :
    ExportStatus × ExportSymbol :=
  match readUleb128 trie terminalEnd offset with
  | none => (.malformed, out)
  | some (flags, offset) =>
    let out := { ExportSymbol.zero with
      flags := flags
      isWeak := flags &&& 0x04 ≠ 0
      isThreadLocal := flags &&& 0x03 = 0x01
      isAbsolute := flags &&& 0x03 = 0x02 }
    if flags &&& 0x08 ≠ 0 then
      let out := { out with isReexport := true }
      match readUleb128 trie terminalEnd offset with
      | none => (.malformed, out)
      | some (ordinal, _) => (.unsupportedKind, { out with other := ordinal })
    else if flags &&& 0x10 ≠ 0 then
      let out := { out with isStubAndResolver := true }
      match readUleb128 trie terminalEnd offset with
      | none => (.malformed, out)
      | some (stub, offset) =>
        match readUleb128 trie terminalEnd offset with
        | none => (.malformed, out)
        | some (resolver, _) => (.ok, { out with address := stub, other := resolver })
    else
      match readUleb128 trie terminalEnd offset with
      | none => (.malformed, out)
      | some (address, _) => (.ok, { out with address := address })

/-- Where the loop over the edges of a node ends. -/
inductive EdgeSearch where
  | malformed
  | missing
  /-- The first edge that matches: how much of the name it consumes, and the node it leads to. -/
  | found (consumed node : Nat)
deriving DecidableEq

/-- The loop over the edges of a node. -/
def findEdge (trie remaining : List Byte) : Nat → Nat → EdgeSearch
  | 0, _ => .missing
  | count + 1, p =>
    let edge := (trie.drop p).takeWhile (· ≠ 0)
    if p + edge.length ≥ trie.length then .malformed
    else
      match readUleb128 trie trie.length (p + edge.length + 1) with
      | none => .malformed
      | some (childOffset, p) =>
        if edge.isPrefixOf remaining then .found edge.length childOffset
        else findEdge trie remaining count p

/-- The loop of `hk_export_trie_find`; the first argument counts the passes that are left. -/
def findFrom (trie : List Byte) (out : ExportSymbol) :
    Nat → Nat → List Byte → ExportStatus × ExportSymbol
  | 0, _, _ => (.malformed, out)
  | passes + 1, node, remaining =>
    if node ≥ trie.length then (.malformed, out)
    else
      match readUleb128 trie trie.length node with
      | none => (.malformed, out)
      | some (terminalSize, p) =>
        if terminalSize > trie.length - p then (.malformed, out)
        else if remaining = [] ∧ terminalSize > 0 then
          decodeTerminal trie p (p + terminalSize) out
        else
          let p := p + terminalSize
          if p ≥ trie.length then (.malformed, out)
          else
            match trie[p]? with
            | none => (.malformed, out)
            | some childCount =>
              match findEdge trie remaining childCount.toNat (p + 1) with
              | .malformed => (.malformed, out)
              | .missing => (.notFound, out)
              | .found consumed node => findFrom trie out passes node (remaining.drop consumed)

/-- `HK_EXPORT_TRIE_MAX_DEPTH`. -/
def exportTrieMaxDepth : Nat := 128

/-- `hk_export_trie_find`.  The name is a C string without its terminator; `out` is what the
caller's symbol holds. -/
def exportTrieFind (trie name : List Byte) (out : ExportSymbol) : ExportStatus × ExportSymbol :=
  if trie.length = 0 then (.invalidArgument, out)
  else findFrom trie out (exportTrieMaxDepth + 1) 0 name

/-! ## What the bytes stand for -/

/-- The kinds of exports. -/
inductive ExportKind where
  | regular | threadLocal | absolute
deriving DecidableEq, Repr

/-- What an export leads to. -/
inductive ExportValue where
  | address (address : Nat)
  | stubAndResolver (stub resolver : Nat)
  | reexport (ordinal : Nat)
deriving DecidableEq, Repr

/-- An export. -/
structure Export where
  kind : ExportKind
  weak : Bool
  value : ExportValue
deriving DecidableEq, Repr

/-- The value of a kind in the flags. -/
def ExportKind.code : ExportKind → Nat
  | .regular => 0x00
  | .threadLocal => 0x01
  | .absolute => 0x02

/-- The bit of a value in the flags. -/
def ExportValue.bit : ExportValue → Nat
  | .address _ => 0x00
  | .reexport _ => 0x08
  | .stubAndResolver _ _ => 0x10

/-- The numbers that follow the flags. -/
def ExportValue.numbers : ExportValue → List Nat
  | .address a => [a]
  | .stubAndResolver stub resolver => [stub, resolver]
  | .reexport ordinal => [ordinal]

/-- The flags of an export. -/
def Export.flags (e : Export) : Nat := e.kind.code + (if e.weak then 0x04 else 0) + e.value.bit

/-- What a lookup answers for an export: its address and kind, and for a re-export, which has no
address of its own, that it is of the unsupported kind. -/
def Export.answer (e : Export) : ExportStatus × ExportSymbol :=
  (match e.value with
    | .reexport _ => .unsupportedKind
    | _ => .ok,
  { flags := e.flags
    address :=
      match e.value with
      | .address a => a
      | .stubAndResolver stub _ => stub
      | .reexport _ => 0
    other :=
      match e.value with
      | .address _ => 0
      | .stubAndResolver _ resolver => resolver
      | .reexport ordinal => ordinal
    isWeak := e.weak
    isThreadLocal := e.kind = .threadLocal
    isAbsolute := e.kind = .absolute
    isReexport := match e.value with | .reexport _ => true | _ => false
    isStubAndResolver := match e.value with | .stubAndResolver _ _ => true | _ => false })

/-- Numbers stand one behind the other, from `offset` on and inside the first `size` bytes. -/
def NumbersAt (buffer : List Byte) (size : Nat) : Nat → List Nat → Prop
  | _, [] => True
  | offset, v :: rest =>
    ∃ next, Leb128.At buffer size offset v next ∧ NumbersAt buffer size next rest

/-- The terminal data of an export: the flags and the numbers.  More data may follow, such as the
imported name of a re-export. -/
def Export.EncodedAt (trie : List Byte) (offset terminalEnd : Nat) (e : Export) : Prop :=
  NumbersAt trie terminalEnd offset (e.flags :: e.value.numbers)

/-- The terminal data of a node, from the size it declares up to `next`. -/
def TerminalAt (trie : List Byte) (offset : Nat) (value : Option Export) (next : Nat) : Prop :=
  ∃ size start, Leb128.At trie trie.length offset size start ∧ next = start + size ∧
    match value with
    | none => size = 0
    | some e => 0 < size ∧ e.EncodedAt trie start next

/-- A tree of exports by name. -/
abbrev ExportTree := PrefixTree Byte Export

mutual

/-- The bytes encode the tree, with its root at the given offset. -/
inductive EncodedAt (trie : List Byte) : Nat → ExportTree → Prop where
  | node {offset p : Nat} {value : Option Export} {edges : List (List Byte × ExportTree)}
      {childCount : Byte} (terminal : TerminalAt trie offset value p)
      (count : trie[p]? = some childCount) (fits : childCount.toNat = edges.length)
      (children : EdgesAt trie (p + 1) edges) : EncodedAt trie offset (.node value edges)

/-- The bytes encode the edges of a node: each a C string and the offset of the child. -/
inductive EdgesAt (trie : List Byte) : Nat → List (List Byte × ExportTree) → Prop where
  | nil {p : Nat} : EdgesAt trie p []
  | cons {p childOffset next : Nat} {label : List Byte} {child : ExportTree}
      {rest : List (List Byte × ExportTree)} (string : label ++ [0#8] <+: trie.drop p)
      (unterminated : ∀ b ∈ label, b ≠ 0)
      (number : Leb128.At trie trie.length (p + label.length + 1) childOffset next)
      (below : EncodedAt trie childOffset child) (others : EdgesAt trie next rest) :
      EdgesAt trie p ((label, child) :: rest)

end

/-! ## Reading numbers -/

/-- The bits a byte adds stay inside 64 bits, since the tenth byte may add only one. -/
theorem add_shift_lt {c k result : Nat} (hc : c < 128) (hk : k ≤ 9) (h : ¬(7 * k = 63 ∧ c > 1))
    (hresult : result < 2 ^ (7 * k)) : result + c * 2 ^ (7 * k) < 2 ^ 64 := by
  have hmul : result + c * 2 ^ (7 * k) < (c + 1) * 2 ^ (7 * k) := by
    rw [Nat.add_mul, Nat.one_mul]
    omega
  refine Nat.lt_of_lt_of_le hmul ?_
  rcases Nat.lt_or_ge k 9 with hlt | hge
  · calc (c + 1) * 2 ^ (7 * k) ≤ 2 ^ 7 * 2 ^ (7 * k) := Nat.mul_le_mul_right _ (by omega)
      _ = 2 ^ (7 + 7 * k) := (Nat.pow_add 2 7 (7 * k)).symm
      _ ≤ 2 ^ 64 := Nat.pow_le_pow_right (by decide) (by omega)
  · obtain rfl : k = 9 := by omega
    have hc' : c ≤ 1 := by omega
    calc (c + 1) * 2 ^ (7 * 9) ≤ 2 * 2 ^ (7 * 9) := Nat.mul_le_mul_right _ (by omega)
      _ = 2 ^ 64 := by decide

theorem chunk_shift_lt {c k : Nat} (hc : c < 128) (hk : k ≤ 9) (h : ¬(7 * k = 63 ∧ c > 1)) :
    c * 2 ^ (7 * k) < 2 ^ 64 := by
  have := add_shift_lt hc hk h (Nat.two_pow_pos (7 * k))
  omega

/-- The loop accepts what is left of an encoding.  After `k` bytes the result holds `7 * k` bits. -/
theorem readUleb128Loop_iff {buffer : List Byte} {size left k offset result v next : Nat}
    (hleft : left + k = 10) (hresult : result < 2 ^ (7 * k)) :
    readUleb128Loop buffer size left offset (7 * k) result = some (v, next) ↔
      ∃ bytes w, Leb128.Encodes bytes w ∧ bytes <+: buffer.drop offset ∧
        next = offset + bytes.length ∧ next ≤ size ∧ bytes.length ≤ left ∧
        v = result + w * 2 ^ (7 * k) ∧ v < 2 ^ 64 := by
  induction left generalizing k offset result with
  | zero =>
    refine ⟨nofun, ?_⟩
    rintro ⟨bytes, w, hencodes, -, -, -, hlength, -, -⟩
    have := hencodes.length_pos
    omega
  | succ left ih =>
    rw [readUleb128Loop]
    split
    · -- the encoding would run past the end
      rename_i hend
      refine ⟨nofun, ?_⟩
      rintro ⟨bytes, w, hencodes, -, rfl, hle, -, -, -⟩
      have := hencodes.length_pos
      omega
    · rename_i hend
      cases hget : buffer[offset]? with
      | none =>
        refine ⟨nofun, ?_⟩
        rintro ⟨bytes, w, hencodes, hpre, -⟩
        obtain ⟨b, rest, rfl⟩ := List.exists_cons_of_ne_nil hencodes.ne_nil
        rw [Leb128.cons_prefix_drop, hget] at hpre
        cases hpre.1
      | some b =>
        have hchunk := Leb128.chunk_lt b
        dsimp only
        rw [Leb128.toNat_and_chunk, if_neg (by omega : ¬(7 * k ≥ 64 ∧ Leb128.chunk b ≠ 0)),
          if_pos (by omega : 7 * k < 64)]
        split
        · -- a tenth byte with more than one bit
          rename_i hwide
          refine ⟨nofun, ?_⟩
          rintro ⟨bytes, w, hencodes, hpre, -, -, -, rfl, hv⟩
          obtain ⟨b', rest, rfl⟩ := List.exists_cons_of_ne_nil hencodes.ne_nil
          rw [Leb128.cons_prefix_drop, hget, Option.some.injEq] at hpre
          obtain ⟨rfl, -⟩ := hpre
          have hw : 2 ≤ w := by
            rcases Leb128.encodes_cons.mp hencodes with ⟨-, -, rfl⟩ | ⟨-, w', -, rfl⟩ <;> omega
          rw [hwide.1] at hv
          omega
        · rename_i hnarrow
          have hpow : Leb128.chunk b * 2 ^ (7 * k) < 2 ^ 64 :=
            chunk_shift_lt hchunk (by omega) hnarrow
          rw [Nat.mod_eq_of_lt (by rwa [Nat.shiftLeft_eq]), Leb128.or_shift hresult]
          have hresult' : result + Leb128.chunk b * 2 ^ (7 * k) < 2 ^ (7 * (k + 1)) := by
            have hstep : (2 : Nat) ^ (7 * (k + 1)) = 128 * 2 ^ (7 * k) := by
              rw [Nat.mul_succ, Nat.pow_add, Nat.mul_comm]
            have := Nat.mul_le_mul_right (2 ^ (7 * k)) (Nat.le_of_lt_succ hchunk)
            omega
          rw [if_congr (Leb128.and_continues b) rfl rfl]
          split
          · rename_i hlast
            constructor
            · intro h
              cases h
              refine ⟨[b], _, .last hlast, Leb128.cons_prefix_drop.mpr ⟨hget, List.nil_prefix⟩, rfl,
                by omega, by simp, rfl, ?_⟩
              exact add_shift_lt hchunk (by omega) hnarrow hresult
            · rintro ⟨bytes, w, hencodes, hpre, rfl, hle, hlength, rfl, hv⟩
              obtain ⟨b', rest, rfl⟩ := List.exists_cons_of_ne_nil hencodes.ne_nil
              rw [Leb128.cons_prefix_drop, hget, Option.some.injEq] at hpre
              obtain ⟨rfl, -⟩ := hpre
              rcases Leb128.encodes_cons.mp hencodes with ⟨-, rfl, rfl⟩ | ⟨hmore, -⟩
              · rfl
              · rw [hlast] at hmore
                cases hmore
          · rename_i hmore
            rw [Bool.not_eq_false] at hmore
            have hshift : 7 * k + 7 = 7 * (k + 1) := by omega
            rw [hshift, ih (by omega) hresult']
            have hvalue : ∀ w, result + Leb128.chunk b * 2 ^ (7 * k) + w * 2 ^ (7 * (k + 1)) =
                result + (Leb128.chunk b + 128 * w) * 2 ^ (7 * k) := by
              intro w
              rw [Nat.mul_succ, Nat.pow_add, Nat.add_mul, Nat.add_assoc]
              congr 2
              rw [Nat.mul_comm 128 w, Nat.mul_assoc, Nat.mul_comm (2 ^ (7 * k))]
            constructor
            · rintro ⟨bytes, w, hencodes, hpre, rfl, hle, hlength, rfl, hv⟩
              refine ⟨b :: bytes, _, .more hmore hencodes,
                Leb128.cons_prefix_drop.mpr ⟨hget, hpre⟩, ?_, hle, ?_, hvalue w, hv⟩
              · rw [List.length_cons]
                omega
              · rw [List.length_cons]
                omega
            · rintro ⟨bytes, w, hencodes, hpre, rfl, hle, hlength, rfl, hv⟩
              obtain ⟨b', rest, rfl⟩ := List.exists_cons_of_ne_nil hencodes.ne_nil
              rw [Leb128.cons_prefix_drop, hget, Option.some.injEq] at hpre
              obtain ⟨rfl, hpre⟩ := hpre
              rcases Leb128.encodes_cons.mp hencodes with ⟨hlast, -⟩ | ⟨-, w', hrest, rfl⟩
              · rw [hlast] at hmore
                cases hmore
              · rw [List.length_cons] at hlength hle ⊢
                exact ⟨rest, w', hrest, hpre, by omega, hle, by omega, (hvalue w').symm, hv⟩

/-- **The number reader** accepts the encodings of 64-bit numbers in at most ten bytes. -/
theorem readUleb128_iff {buffer : List Byte} {size offset v next : Nat} :
    readUleb128 buffer size offset = some (v, next) ↔ Leb128.At buffer size offset v next := by
  rw [readUleb128, show (0 : Nat) = 7 * 0 from rfl, readUleb128Loop_iff (by rfl) (by decide)]
  constructor
  · rintro ⟨bytes, w, hencodes, hpre, hnext, hle, hlength, hv, hlt⟩
    rw [Nat.mul_zero, Nat.pow_zero, Nat.mul_one, Nat.zero_add] at hv
    subst hv
    exact ⟨bytes, hencodes, hpre, hnext, hle, hlength, hlt⟩
  · rintro ⟨bytes, hencodes, hpre, hnext, hle, hlength, hlt⟩
    exact ⟨bytes, v, hencodes, hpre, hnext, hle, hlength, by simp, hlt⟩

/-! ## The lookup -/

/-- The terminal data of an export decodes to what a lookup answers for it. -/
theorem decodeTerminal_eq {trie : List Byte} {offset terminalEnd : Nat} {e : Export}
    (h : e.EncodedAt trie offset terminalEnd) (out : ExportSymbol) :
    decodeTerminal trie offset terminalEnd out = e.answer := by
  obtain ⟨kind, weak, value⟩ := e
  obtain ⟨next, hflags, hnumbers⟩ := h
  rw [decodeTerminal, readUleb128_iff.mpr hflags]
  cases value with
  | address a =>
    obtain ⟨next', haddress, -⟩ := hnumbers
    cases kind <;> cases weak <;>
      simp [readUleb128_iff.mpr haddress, Export.flags, Export.answer, ExportKind.code,
        ExportValue.bit, ExportSymbol.zero]
  | stubAndResolver stub resolver =>
    obtain ⟨next', hstub, next'', hresolver, -⟩ := hnumbers
    cases kind <;> cases weak <;>
      simp [readUleb128_iff.mpr hstub, readUleb128_iff.mpr hresolver, Export.flags, Export.answer,
        ExportKind.code, ExportValue.bit, ExportSymbol.zero]
  | reexport ordinal =>
    obtain ⟨next', hordinal, -⟩ := hnumbers
    cases kind <;> cases weak <;>
      simp [readUleb128_iff.mpr hordinal, Export.flags, Export.answer, ExportKind.code,
        ExportValue.bit, ExportSymbol.zero]

/-- The scan for the terminator stops behind the label. -/
theorem takeWhile_label {trie label : List Byte} {p : Nat} (h : label ++ [0#8] <+: trie.drop p)
    (hlabel : ∀ b ∈ label, b ≠ 0) :
    (trie.drop p).takeWhile (· ≠ 0) = label ∧ p + label.length < trie.length := by
  obtain ⟨rest, hrest⟩ := h
  have hlength := congrArg List.length hrest
  simp only [List.length_append, List.length_drop, List.length_singleton] at hlength
  refine ⟨?_, by omega⟩
  rw [← hrest, List.append_assoc, List.takeWhile_append_of_pos (by simpa using hlabel)]
  simp

/-- The loop over the edges finds an edge that goes on with the rest of the name, if there is
one. -/
theorem findEdge_spec {trie remaining : List Byte} {edges : List (List Byte × ExportTree)} {p : Nat}
    (h : EdgesAt trie p edges) :
    (∃ label child childOffset, (label, child) ∈ edges ∧ label <+: remaining ∧
        EncodedAt trie childOffset child ∧
        findEdge trie remaining edges.length p = .found label.length childOffset) ∨
      ((∀ label child, (label, child) ∈ edges → ¬ label <+: remaining) ∧
        findEdge trie remaining edges.length p = .missing) := by
  induction edges generalizing p with
  | nil => exact .inr ⟨fun _ _ hmem ↦ absurd hmem List.not_mem_nil, rfl⟩
  | cons edge rest ih =>
    cases h with
    | @cons _ childOffset next label child _ string unterminated number below others =>
      obtain ⟨hscan, hinside⟩ := takeWhile_label string unterminated
      rw [List.length_cons, findEdge, hscan, readUleb128_iff.mpr number]
      dsimp only
      rw [if_neg (by omega)]
      by_cases hpre : label <+: remaining
      · rw [if_pos (List.isPrefixOf_iff_prefix.mpr hpre)]
        exact .inl ⟨label, child, childOffset, List.mem_cons_self, hpre, below, rfl⟩
      · rw [if_neg (by rwa [List.isPrefixOf_iff_prefix])]
        rcases ih others with ⟨label', child', childOffset', hmem, hrest⟩ | ⟨hno, hmissing⟩
        · exact .inl ⟨label', child', childOffset', List.mem_cons_of_mem _ hmem, hrest⟩
        · refine .inr ⟨fun label' child' hmem ↦ ?_, hmissing⟩
          rcases List.mem_cons.mp hmem with heq | hmem
          · cases heq
            exact hpre
          · exact hno label' child' hmem

/-- One pass of the walk: the name ends at a defined node, or the edges decide. -/
theorem findFrom_node {trie : List Byte} (out : ExportSymbol) (passes : Nat) {node p : Nat}
    {value : Option Export} {edges : List (List Byte × ExportTree)} {childCount : Byte}
    {remaining : List Byte} (terminal : TerminalAt trie node value p)
    (count : trie[p]? = some childCount) (fits : childCount.toNat = edges.length) :
    (remaining = [] ∧ ∃ e, value = some e ∧
        findFrom trie out (passes + 1) node remaining = e.answer) ∨
      ((remaining = [] → ∀ e, value ≠ some e) ∧
        findFrom trie out (passes + 1) node remaining =
          match findEdge trie remaining edges.length (p + 1) with
          | .malformed => (.malformed, out)
          | .missing => (.notFound, out)
          | .found consumed node => findFrom trie out passes node (remaining.drop consumed)) := by
  obtain ⟨size, start, hsize, rfl, hvalue⟩ := terminal
  have hinside : start + size < trie.length := (List.getElem?_eq_some_iff.mp count).1
  have hstart := hsize.lt_next
  rw [findFrom, readUleb128_iff.mpr hsize, if_neg (by omega)]
  dsimp only
  rw [if_neg (by omega), if_neg (by omega : ¬ start + size ≥ trie.length), count, ← fits]
  by_cases hend : remaining = [] ∧ size > 0
  · rw [if_pos hend]
    cases value with
    | none => exact absurd hvalue (by omega)
    | some e => exact .inl ⟨hend.1, e, rfl, decodeTerminal_eq hvalue.2 out⟩
  · rw [if_neg hend]
    refine .inr ⟨fun hname e he ↦ ?_, rfl⟩
    subst he
    exact hend ⟨hname, hvalue.1⟩

/-- **The walk from a node** answers what the tree below it defines.  The induction is on the passes
that are left, of which there are more than the tree is deep. -/
theorem findFrom_spec {trie : List Byte} (out : ExportSymbol) {passes node : Nat}
    {tree : ExportTree} (hencoded : EncodedAt trie node tree) (hwf : tree.WellFormed)
    (hdepth : tree.DepthAtMost passes) (remaining : List Byte) :
    (∃ e, tree.Maps remaining e ∧ findFrom trie out (passes + 1) node remaining = e.answer) ∨
      ((∀ e, ¬ tree.Maps remaining e) ∧
        findFrom trie out (passes + 1) node remaining = (.notFound, out)) := by
  induction passes generalizing node tree remaining with
  | zero =>
    obtain ⟨terminal, count, fits, children⟩ := hencoded
    rename_i p value edges childCount
    obtain rfl : edges = [] := hdepth
    rcases @findFrom_node _ out 0 _ _ _ _ _ remaining terminal count fits with h | ⟨hnone, h⟩
    · obtain ⟨rfl, e, rfl, h⟩ := h
      exact .inl ⟨e, .here rfl, h⟩
    · refine .inr ⟨fun e hmaps ↦ ?_, h⟩
      cases hmaps with
      | here hvalue => exact hnone rfl _ hvalue
      | edge hmem below => exact absurd hmem List.not_mem_nil
  | succ passes ih =>
    obtain ⟨terminal, count, fits, children⟩ := hencoded
    rename_i p value edges childCount
    rcases @findFrom_node _ out (passes + 1) _ _ _ _ _ remaining terminal count fits
      with h | ⟨hnone, h⟩
    · obtain ⟨rfl, e, rfl, h⟩ := h
      exact .inl ⟨e, .here rfl, h⟩
    · rw [h]
      rcases @findEdge_spec _ remaining _ _ children
        with ⟨label, child, childOffset, hmem, ⟨rest, rfl⟩, hbelow, hfound⟩ | ⟨hno, hmissing⟩
      · rw [hfound]
        have hmaps (e : Export) : PrefixTree.Maps _ (label ++ rest) e ↔ _ := hwf.maps_edge hmem
        simp only [List.drop_left, hmaps]
        exact ih hbelow (hwf.child hmem) (hdepth label child hmem) rest
      · rw [hmissing]
        refine .inr ⟨fun e hmaps ↦ ?_, rfl⟩
        by_cases hname : remaining = []
        · subst hname
          exact hnone rfl e (hwf.maps_nil.mp hmaps)
        · exact PrefixTree.not_maps hname hno hmaps

/-- **Looking a name up in the encoding of a map.**  Names are C strings, so no byte of them is
zero; the walker bounds the edges on a way down, not the letters. -/
theorem exportTrieFind_eq (exports : List Byte → Option Export) (tree : ExportTree)
    (trie : List Byte) (hexports : ∀ name e, exports name = some e ↔ tree.Maps name e)
    (hwf : tree.WellFormed) (hdepth : tree.DepthAtMost exportTrieMaxDepth)
    (hencoded : EncodedAt trie 0 tree) (name : List Byte) (out : ExportSymbol) :
    exportTrieFind trie name out = ((exports name).map Export.answer).getD (.notFound, out) := by
  have hnonempty : trie.length ≠ 0 := by
    obtain ⟨⟨size, start, hsize, -⟩, -⟩ := hencoded
    have := hsize.lt_next
    have := hsize.next_le
    omega
  rw [exportTrieFind, if_neg hnonempty]
  rcases findFrom_spec out hencoded hwf hdepth name with ⟨e, hmaps, h⟩ | ⟨hno, h⟩
  · rw [h, (hexports name e).mpr hmaps]
    rfl
  · have hnone : exports name = none :=
      Option.eq_none_iff_forall_not_mem.mpr fun e he ↦ hno e ((hexports name e).mp he)
    rw [h, hnone]
    rfl

/-- An image that exports `_a` and, as a weak definition, `_ab`. -/
def sampleTrie : List Byte :=
  [0x00, 0x01, 0x5f, 0x61, 0x00, 0x06,
    0x02, 0x00, 0x10, 0x01, 0x62, 0x00, 0x0d,
    0x03, 0x04, 0x80, 0x01, 0x00]

def sampleTree : ExportTree :=
  .node none [([0x5f, 0x61], .node (some ⟨.regular, false, .address 0x10⟩)
    [([0x62], .node (some ⟨.regular, true, .address 0x80⟩) [])])]

def sampleExports (name : List Byte) : Option Export :=
  if name = [0x5f, 0x61] then some ⟨.regular, false, .address 0x10⟩
  else if name = [0x5f, 0x61, 0x62] then some ⟨.regular, true, .address 0x80⟩
  else none

theorem sampleTree_maps (name : List Byte) (e : Export) :
    sampleExports name = some e ↔ sampleTree.Maps name e := by
  constructor
  · intro h
    rw [sampleExports] at h
    split at h
    · rename_i hname
      cases h
      subst hname
      exact PrefixTree.maps_iff.mpr (.inr ⟨[0x5f, 0x61], _, [], List.mem_cons_self, rfl, .here rfl⟩)
    · split at h
      · rename_i hname
        cases h
        subst hname
        refine PrefixTree.maps_iff.mpr (.inr ⟨[0x5f, 0x61], _, [0x62], List.mem_cons_self, rfl, ?_⟩)
        exact PrefixTree.maps_iff.mpr (.inr ⟨[0x62], _, [], List.mem_cons_self, rfl, .here rfl⟩)
      · cases h
  · rintro (h | ⟨hmem, below⟩)
    · cases h
    · cases List.mem_singleton.mp hmem
      rcases below with h | ⟨hmem, below⟩
      · exact h
      · cases List.mem_singleton.mp hmem
        rcases below with h | ⟨hmem, below⟩
        · exact h
        · exact absurd hmem List.not_mem_nil

theorem sampleTree_wellFormed : sampleTree.WellFormed := by
  refine .node ?_ (by decide) ?_
  · intro label child hmem
    cases List.mem_singleton.mp hmem
    decide
  · intro label child hmem
    cases List.mem_singleton.mp hmem
    refine .node ?_ (by decide) ?_
    · intro label child hmem
      cases List.mem_singleton.mp hmem
      decide
    · intro label child hmem
      cases List.mem_singleton.mp hmem
      exact .node nofun (by decide) nofun

theorem sampleTree_depth : sampleTree.DepthAtMost exportTrieMaxDepth := by
  intro label child hmem
  cases List.mem_singleton.mp hmem
  intro label child hmem
  cases List.mem_singleton.mp hmem
  exact nofun

theorem sampleTrie_byte {size offset : Nat} {b : Byte} (hget : sampleTrie[offset]? = some b)
    (hb : Leb128.continues b = false) (hsize : offset + 1 ≤ size) :
    Leb128.At sampleTrie size offset (Leb128.chunk b) (offset + 1) :=
  ⟨[b], .last hb, Leb128.cons_prefix_drop.mpr ⟨hget, List.nil_prefix⟩, rfl, hsize,
    Nat.succ_le_succ (Nat.zero_le 9), Nat.lt_of_lt_of_le (Leb128.chunk_lt b) (by decide)⟩

theorem sampleTree_encoded : EncodedAt sampleTrie 0 sampleTree := by
  have two : Leb128.At sampleTrie 17 15 0x80 17 :=
    ⟨[0x80, 0x01], .more rfl (.last rfl), by decide, rfl, by decide, by decide, by decide⟩
  have leaf : EncodedAt sampleTrie 13 (.node (some ⟨.regular, true, .address 0x80⟩) []) :=
    @EncodedAt.node _ 13 17 _ [] 0 ⟨3, 14, sampleTrie_byte (b := 3) rfl rfl (by decide), rfl,
      by decide, 15, sampleTrie_byte (b := 4) rfl rfl (by decide), 17, two, trivial⟩ rfl rfl .nil
  have inner : EncodedAt sampleTrie 6 (.node (some ⟨.regular, false, .address 0x10⟩)
      [([0x62], .node (some ⟨.regular, true, .address 0x80⟩) [])]) :=
    @EncodedAt.node _ 6 9 _ _ 1 ⟨2, 7, sampleTrie_byte (b := 2) rfl rfl (by decide), rfl,
      by decide, 8, sampleTrie_byte (b := 0) rfl rfl (by decide), 9,
      sampleTrie_byte (b := 0x10) rfl rfl (by decide), trivial⟩ rfl rfl
      (@EdgesAt.cons _ _ 13 13 _ _ _ (by decide) (by decide)
        (sampleTrie_byte (b := 0x0d) rfl rfl (by decide)) leaf .nil)
  exact @EncodedAt.node _ 0 1 _ _ 1 ⟨0, 1, sampleTrie_byte (b := 0) rfl rfl (by decide), rfl, rfl⟩
    rfl rfl (@EdgesAt.cons _ _ 6 6 _ _ _ (by decide) (by decide)
      (sampleTrie_byte (b := 6) rfl rfl (by decide)) inner .nil)

/-- The name `_ab`, an extension of another exported name. -/
theorem exportTrieFind_eq_extension : exportTrieFind sampleTrie [0x5f, 0x61, 0x62] .zero =
    Export.answer ⟨.regular, true, .address 0x80⟩ :=
  exportTrieFind_eq sampleExports sampleTree sampleTrie sampleTree_maps sampleTree_wellFormed
    sampleTree_depth sampleTree_encoded [0x5f, 0x61, 0x62] .zero

end HookKit.ExportTrie
