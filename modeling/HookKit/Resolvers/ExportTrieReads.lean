import HookKit.Lib.Checked
import HookKit.Resolvers.ExportTrie
import Mathlib.Data.List.TakeWhile

/-!
# Reads of the export trie

The functions of `HKExportTrie.c` once more, now with every byte they read: the bytes of the trie
and of the name are memory, and a read outside of them has no meaning.  They always have one, and
compute what the functions over lists compute.

* `Raw` — the functions, over offsets into the trie and into the name.
* `readUleb128_reads` — the number reader reads in the part of the buffer it was given.
* `strncmp_reads` — the comparison of an edge stops at the end of the name.
* `exportTrieFind_reads` — the walk, on any bytes.
* `uleb128_inverts` — the reader and the encodings, and the walk that is built on it.
-/

set_option autoImplicit false

namespace HookKit.ExportTrie

open Checked

namespace Raw

/-- The loop of `hk_export_read_uleb128`. -/
def readUleb128Loop (buffer : List Byte) (size : Nat) :
    Nat → Nat → Nat → Nat → Option (Option (Nat × Nat))
  | 0, _, _, _ => some none
  | left + 1, offset, shift, result =>
    if offset ≥ size then some none
    else do
      let byte ← buffer[offset]?
      let chunk := (byte &&& 0x7f#8).toNat
      if shift = 63 ∧ chunk > 1 then some none
      else if shift ≥ 64 ∧ chunk ≠ 0 then some none
      else
        let result := if shift < 64 then result ||| chunk <<< shift % 2 ^ 64 else result
        if byte &&& 0x80#8 = 0#8 then some (some (result, offset + 1))
        else readUleb128Loop buffer size left (offset + 1) (shift + 7) result

/-- `hk_export_read_uleb128`. -/
def readUleb128 (buffer : List Byte) (size offset : Nat) : Option (Option (Nat × Nat)) :=
  readUleb128Loop buffer size 10 offset 0 0

/-- `decode_terminal`. -/
def decodeTerminal (trie : List Byte) (offset terminalEnd : Nat) (out : ExportSymbol) :
    Option (ExportStatus × ExportSymbol) := do
  match ← readUleb128 trie terminalEnd offset with
  | none => some (.malformed, out)
  | some (flags, offset) =>
    let out := { ExportSymbol.zero with
      flags := flags
      isWeak := flags &&& 0x04 ≠ 0
      isThreadLocal := flags &&& 0x03 = 0x01
      isAbsolute := flags &&& 0x03 = 0x02 }
    if flags &&& 0x08 ≠ 0 then
      let out := { out with isReexport := true }
      match ← readUleb128 trie terminalEnd offset with
      | none => some (.malformed, out)
      | some (ordinal, _) => some (.unsupportedKind, { out with other := ordinal })
    else if flags &&& 0x10 ≠ 0 then
      let out := { out with isStubAndResolver := true }
      match ← readUleb128 trie terminalEnd offset with
      | none => some (.malformed, out)
      | some (stub, offset) =>
        match ← readUleb128 trie terminalEnd offset with
        | none => some (.malformed, out)
        | some (resolver, _) => some (.ok, { out with address := stub, other := resolver })
    else
      match ← readUleb128 trie terminalEnd offset with
      | none => some (.malformed, out)
      | some (address, _) => some (.ok, { out with address := address })

/-- The scan for the NUL of an edge; without one it ends behind the trie. -/
def scanEdge (trie : List Byte) (p : Nat) : Option Nat :=
  if p < trie.length then do
    let byte ← trie[p]?
    if byte ≠ 0 then scanEdge trie (p + 1) else some p
  else some p
termination_by trie.length - p

/-- `strncmp(…) == 0`: at most `count` bytes are compared, and none behind a NUL. -/
def strncmp (a : List Byte) (i : Nat) (b : List Byte) (j : Nat) : Nat → Option Bool
  | 0 => some true
  | count + 1 => do
    let x ← a[i]?
    let y ← b[j]?
    if x ≠ y then some false
    else if x = 0 then some true
    else strncmp a (i + 1) b (j + 1) count

/-- The loop over the edges of a node. -/
def findEdge (trie string : List Byte) (remaining : Nat) : Nat → Nat → Option EdgeSearch
  | 0, _ => some .missing
  | count + 1, edgeStart => do
    let p ← scanEdge trie edgeStart
    if p ≥ trie.length then some .malformed
    else
      let edgeLength := p - edgeStart
      match ← readUleb128 trie trie.length (p + 1) with
      | none => some .malformed
      | some (childOffset, p) =>
        if ← strncmp string remaining trie edgeStart edgeLength then
          some (.found edgeLength childOffset)
        else findEdge trie string remaining count p

/-- The loop of `hk_export_trie_find`. -/
def findFrom (trie string : List Byte) (out : ExportSymbol) :
    Nat → Nat → Nat → Option (ExportStatus × ExportSymbol)
  | 0, _, _ => some (.malformed, out)
  | passes + 1, node, remaining =>
    if node ≥ trie.length then some (.malformed, out)
    else do
      match ← readUleb128 trie trie.length node with
      | none => some (.malformed, out)
      | some (terminalSize, p) =>
        if terminalSize > trie.length - p then some (.malformed, out)
        else
          let first ← string[remaining]?
          if first = 0 ∧ terminalSize > 0 then decodeTerminal trie p (p + terminalSize) out
          else
            let p := p + terminalSize
            if p ≥ trie.length then some (.malformed, out)
            else
              let childCount ← trie[p]?
              match ← findEdge trie string remaining childCount.toNat (p + 1) with
              | .malformed => some (.malformed, out)
              | .missing => some (.notFound, out)
              | .found consumed node => findFrom trie string out passes node (remaining + consumed)

/-- `hk_export_trie_find`; `string` is the memory from the name on. -/
def exportTrieFind (trie string : List Byte) (out : ExportSymbol) :
    Option (ExportStatus × ExportSymbol) :=
  if trie.length = 0 then some (.invalidArgument, out)
  else findFrom trie string out (exportTrieMaxDepth + 1) 0 0

end Raw

/-! ## Numbers and terminals -/

theorem readUleb128Loop_reads {buffer : List Byte} {size : Nat} (h : size ≤ buffer.length)
    (left offset shift result : Nat) :
    Raw.readUleb128Loop buffer size left offset shift result =
      some (readUleb128Loop buffer size left offset shift result) := by
  induction left generalizing offset shift result with
  | zero => rfl
  | succ left ih =>
    rw [Raw.readUleb128Loop, readUleb128Loop]
    by_cases hend : offset ≥ size
    · rw [if_pos hend, if_pos hend]
    · have hget : buffer[offset]? = some buffer[offset] := List.getElem?_eq_getElem (by omega)
      rw [if_neg hend, if_neg hend, hget]
      simp only [Option.bind_eq_bind, Option.bind_some, ih, apply_ite some]

/-- **The number reader** reads in the part of the buffer it was given. -/
theorem readUleb128_reads {buffer : List Byte} {size : Nat} (h : size ≤ buffer.length)
    (offset : Nat) :
    Raw.readUleb128 buffer size offset = some (readUleb128 buffer size offset) :=
  readUleb128Loop_reads h 10 offset 0 0

theorem decodeTerminal_reads {trie : List Byte} {terminalEnd : Nat}
    (h : terminalEnd ≤ trie.length) (offset : Nat) (out : ExportSymbol) :
    Raw.decodeTerminal trie offset terminalEnd out =
      some (decodeTerminal trie offset terminalEnd out) := by
  rw [Raw.decodeTerminal, decodeTerminal]
  simp only [readUleb128_reads h, Option.bind_eq_bind, Option.bind_some]
  cases readUleb128 trie terminalEnd offset with
  | none => rfl
  | some read =>
    obtain ⟨flags, offset⟩ := read
    dsimp only
    split
    · cases readUleb128 trie terminalEnd offset <;> rfl
    split
    · cases readUleb128 trie terminalEnd offset with
      | none => rfl
      | some read =>
        dsimp only
        cases readUleb128 trie terminalEnd read.2 <;> rfl
    · cases readUleb128 trie terminalEnd offset <;> rfl

/-! ## Edges -/

theorem ne_zero_of_mem_takeWhile {b : Byte} {bytes : List Byte}
    (h : b ∈ bytes.takeWhile (· ≠ 0)) : b ≠ 0 := by
  simpa using List.mem_takeWhile_imp h

/-- The scan stops at the first NUL, or behind the trie. -/
theorem scanEdge_reads (trie : List Byte) (p : Nat) :
    Raw.scanEdge trie p = some (p + ((trie.drop p).takeWhile (· ≠ 0)).length) := by
  fun_induction Raw.scanEdge trie p with
  | case1 p hlt ih =>
    rw [List.getElem?_eq_getElem hlt, List.drop_eq_getElem_cons hlt, List.takeWhile_cons]
    simp only [Option.bind_eq_bind, Option.bind_some]
    split
    · rename_i hbyte
      rw [ih, if_pos (by simpa using hbyte), List.length_cons]
      congr 1
      omega
    · rename_i hbyte
      rw [if_neg (by simpa using hbyte)]
      rfl
  | case2 p hge =>
    rw [List.drop_eq_nil_of_le (by omega)]
    rfl

/-- **The comparison of an edge** with what is left of the name.  The name ends with its NUL, and no
byte of the edge is one, so that the first difference comes before the end of either. -/
theorem strncmp_reads {trie name rest : List Byte} {edge : List Byte} {remaining edgeStart : Nat}
    (hedge : edge <+: trie.drop edgeStart) (hnonzero : ∀ b ∈ edge, b ≠ 0)
    (hname : ∀ b ∈ name, b ≠ 0) (hremaining : remaining ≤ name.length) :
    Raw.strncmp (name ++ 0 :: rest) remaining trie edgeStart edge.length =
      some (edge.isPrefixOf (name.drop remaining)) := by
  induction edge generalizing remaining edgeStart with
  | nil => rfl
  | cons b edge ih =>
    obtain ⟨hget, hrest⟩ := Leb128.cons_prefix_drop.mp hedge
    have hb : b ≠ 0 := hnonzero b List.mem_cons_self
    rw [List.length_cons, Raw.strncmp, hget]
    rcases Nat.lt_or_eq_of_le hremaining with hlt | rfl
    · rw [List.getElem?_append_left hlt, List.getElem?_eq_getElem hlt,
        List.drop_eq_getElem_cons hlt, List.isPrefixOf_cons_cons]
      simp only [Option.bind_eq_bind, Option.bind_some]
      by_cases heq : name[remaining] = b
      · rw [if_neg (not_not.mpr heq), if_neg (hname _ (List.getElem_mem hlt)),
          ih hrest (fun b hb ↦ hnonzero b (List.mem_cons_of_mem _ hb)) hlt, heq, beq_self_eq_true,
          Bool.true_and]
      · rw [if_pos heq, beq_false_of_ne (Ne.symm heq), Bool.false_and]
    · -- the name has ended
      rw [List.getElem?_append_right (Nat.le_refl _), Nat.sub_self, List.drop_length]
      exact if_pos (Ne.symm hb)

theorem findEdge_reads {trie name rest : List Byte} {remaining : Nat}
    (hname : ∀ b ∈ name, b ≠ 0) (hremaining : remaining ≤ name.length) (count p : Nat) :
    Raw.findEdge trie (name ++ 0 :: rest) remaining count p =
      some (findEdge trie (name.drop remaining) count p) := by
  induction count generalizing p with
  | zero => rfl
  | succ count ih =>
    rw [Raw.findEdge, findEdge, scanEdge_reads]
    have hedge : (trie.drop p).takeWhile (· ≠ 0) <+: trie.drop p := List.takeWhile_prefix _
    have hnonzero : ∀ b ∈ (trie.drop p).takeWhile (· ≠ 0), b ≠ 0 := fun _ ↦
      ne_zero_of_mem_takeWhile
    generalize (trie.drop p).takeWhile (· ≠ 0) = edge at hedge hnonzero ⊢
    simp only [Option.bind_eq_bind, Option.bind_some, Nat.add_sub_cancel_left,
      readUleb128_reads (Nat.le_refl trie.length),
        strncmp_reads hedge hnonzero hname hremaining, ih]
    split
    · rfl
    · cases readUleb128 trie trie.length (p + edge.length + 1) with
      | none => rfl
      | some read =>
        dsimp only
        split <;> rfl

theorem findEdge_consumed {trie remaining : List Byte} {count p consumed node : Nat}
    (h : findEdge trie remaining count p = .found consumed node) :
    consumed ≤ remaining.length := by
  induction count generalizing p with
  | zero => cases h
  | succ count ih =>
    rw [findEdge] at h
    split at h
    · cases h
    split at h
    · cases h
    split at h
    · rename_i hpre
      cases h
      exact (List.isPrefixOf_iff_prefix.mp hpre).length_le
    · exact ih h

/-! ## The walk -/

/-- The byte at which the name goes on; it is the NUL if nothing of the name is left. -/
theorem string_first {name : List Byte} (rest : List Byte) {remaining : Nat}
    (hname : ∀ b ∈ name, b ≠ 0) (hremaining : remaining ≤ name.length) :
    ∃ first, (name ++ 0 :: rest)[remaining]? = some first ∧
      (first = 0 ↔ name.drop remaining = []) := by
  rcases Nat.lt_or_eq_of_le hremaining with hlt | rfl
  · refine ⟨name[remaining], ?_, ?_⟩
    · rw [List.getElem?_append_left hlt, List.getElem?_eq_getElem hlt]
    · rw [List.drop_eq_nil_iff]
      exact ⟨fun h ↦ absurd h (hname _ (List.getElem_mem hlt)), fun h ↦ absurd hlt (by omega)⟩
  · refine ⟨0, ?_, ?_⟩
    · rw [List.getElem?_append_right (Nat.le_refl _), Nat.sub_self]
      rfl
    · rw [List.drop_length]
      exact iff_of_true rfl rfl

/-- The walk from a node.  The induction is on the passes that are left; what it needs of the one
before is that the name is not left behind. -/
theorem findFrom_reads {trie name : List Byte} (rest : List Byte) (out : ExportSymbol)
    (hname : ∀ b ∈ name, b ≠ 0) (passes node : Nat) {remaining : Nat}
    (hremaining : remaining ≤ name.length) :
    Raw.findFrom trie (name ++ 0 :: rest) out passes node remaining =
      some (findFrom trie out passes node (name.drop remaining)) := by
  induction passes generalizing node remaining with
  | zero => rfl
  | succ passes ih =>
    obtain ⟨first, hfirst, hend⟩ := string_first rest hname hremaining
    rw [Raw.findFrom, findFrom]
    by_cases hnode : node ≥ trie.length
    · rw [if_pos hnode, if_pos hnode]
    rw [if_neg hnode, if_neg hnode, readUleb128_reads (Nat.le_refl _)]
    simp only [Option.bind_eq_bind, Option.bind_some, hfirst]
    cases hread : readUleb128 trie trie.length node with
    | none => rfl
    | some read =>
      obtain ⟨terminalSize, p⟩ := read
      have hp := (readUleb128_iff.mp hread).next_le
      dsimp only
      by_cases hsize : terminalSize > trie.length - p
      · rw [if_pos hsize, if_pos hsize]
      rw [if_neg hsize, if_neg hsize]
      by_cases hterminal : name.drop remaining = [] ∧ terminalSize > 0
      · rw [if_pos hterminal, if_pos (by rwa [hend])]
        exact decodeTerminal_reads (by omega) p out
      rw [if_neg hterminal, if_neg (by rwa [hend])]
      by_cases hcount : p + terminalSize ≥ trie.length
      · rw [if_pos hcount, if_pos hcount]
      have hget : trie[p + terminalSize]? = some trie[p + terminalSize] :=
        List.getElem?_eq_getElem (by omega)
      rw [if_neg hcount, if_neg hcount, hget]
      simp only [Option.bind_some, findEdge_reads hname hremaining]
      cases hfound : findEdge trie (name.drop remaining) trie[p + terminalSize].toNat
          (p + terminalSize + 1) with
      | malformed => rfl
      | missing => rfl
      | found consumed node =>
        have hconsumed := findEdge_consumed hfound
        rw [List.length_drop] at hconsumed
        dsimp only
        rw [ih node (by omega), List.drop_drop]

/-- A C string and the memory behind it. -/
theorem string_split {string : List Byte} (h : 0 ∈ string) :
    ∃ rest, string = string.takeWhile (· ≠ 0) ++ 0 :: rest := by
  induction string with
  | nil => cases h
  | cons b string ih =>
    by_cases hb : b = 0
    · subst hb
      exact ⟨string, rfl⟩
    · obtain ⟨rest, hrest⟩ := ih ((List.mem_cons.mp h).resolve_left (Ne.symm hb))
      refine ⟨rest, ?_⟩
      rw [List.takeWhile_cons_of_pos (by simpa using hb), List.cons_append, ← hrest]

/-- **The walk reads inside the trie and the name**, whatever the trie holds, and ends. -/
theorem exportTrieFind_reads (trie : List Byte) {string : List Byte} (h : 0 ∈ string)
    (out : ExportSymbol) :
    Raw.exportTrieFind trie string out =
      some (exportTrieFind trie (string.takeWhile (· ≠ 0)) out) := by
  have hname : ∀ b ∈ string.takeWhile (· ≠ 0), b ≠ 0 := fun _ ↦ ne_zero_of_mem_takeWhile
  obtain ⟨rest, hstring⟩ := string_split h
  rw [Raw.exportTrieFind, exportTrieFind]
  by_cases hempty : trie.length = 0
  · rw [if_pos hempty, if_pos hempty]
  · rw [if_neg hempty, if_neg hempty]
    generalize string.takeWhile (· ≠ 0) = name at hname hstring ⊢
    subst hstring
    exact findFrom_reads rest out hname _ 0 (Nat.zero_le _)

/-! ## The reader and the encodings -/

/-- **ULEB128 decoding inverts encoding.**  The reader accepts exactly the encodings, padded ones
too, of at most ten bytes that lie inside the buffer and denote a 64-bit number; it gives back the
number that was encoded, and moves behind it.  The walk that is built on it reads inside the trie
and the name, on any bytes, and ends. -/
theorem uleb128_inverts :
    (∀ (buffer : List Byte) (size offset : Nat), size ≤ buffer.length →
      ∃ read, Raw.readUleb128 buffer size offset = some read ∧
        ∀ v next, read = some (v, next) ↔ Leb128.At buffer size offset v next) ∧
    (∀ (before after : List Byte) (v : Nat), v < 2 ^ 64 →
      Raw.readUleb128 (before ++ Leb128.encode v ++ after)
          (before ++ Leb128.encode v ++ after).length before.length =
        some (some (v, before.length + (Leb128.encode v).length))) ∧
    ∀ (trie string : List Byte) (out : ExportSymbol), 0 ∈ string →
      Raw.exportTrieFind trie string out =
        some (exportTrieFind trie (string.takeWhile (· ≠ 0)) out) := by
  refine ⟨fun buffer size offset hsize ↦ ?_, fun before after v hv ↦ ?_, ?_⟩
  · exact ⟨_, readUleb128_reads hsize offset, fun _ _ ↦ readUleb128_iff⟩
  · rw [readUleb128_reads (Nat.le_refl _),
      readUleb128_iff.mpr (Leb128.at_encode before after hv)]
  · exact fun trie _ out h ↦ exportTrieFind_reads trie h out

/-- A root with an edge to itself that consumes nothing. -/
def cyclicTrie : List Byte := [0x00, 0x01, 0x00, 0x00]

/-- A padded encoding, the largest number, and a walk that would never end but for its bound. -/
theorem uleb128_inverts_cyclic :
    (∃ read, Raw.readUleb128 [0x81, 0x80, 0x00] 3 0 = some read ∧
      ∀ v next, read = some (v, next) ↔ Leb128.At [0x81, 0x80, 0x00] 3 0 v next) ∧
    Raw.readUleb128 ([0xff] ++ Leb128.encode (2 ^ 64 - 1) ++ [0x7f])
        ([0xff] ++ Leb128.encode (2 ^ 64 - 1) ++ [0x7f]).length 1 =
      some (some (2 ^ 64 - 1, 1 + (Leb128.encode (2 ^ 64 - 1)).length)) ∧
    Raw.exportTrieFind cyclicTrie [0x5f, 0x61, 0x00] .zero = some (.malformed, .zero) := by
  refine ⟨uleb128_inverts.1 [0x81, 0x80, 0x00] 3 0 (by decide),
    uleb128_inverts.2.1 [0xff] [0x7f] (2 ^ 64 - 1) (by decide), ?_⟩
  have hwalk : exportTrieFind cyclicTrie [0x5f, 0x61] .zero = (.malformed, .zero) := by
    decide +kernel
  rw [uleb128_inverts.2.2 cyclicTrie [0x5f, 0x61, 0x00] .zero (by decide)]
  exact congrArg some hwalk

end HookKit.ExportTrie
