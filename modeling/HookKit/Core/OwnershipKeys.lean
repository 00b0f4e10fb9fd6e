import Mathlib.Data.List.Sort
import Mathlib.Data.Set.Basic
import HookKit.Core.Ownership
import HookKit.Lib.LittleEndian
import HookKit.Lib.Pointwise
import HookKit.Lib.SelfDelimiting

/-!
# What an ownership key says

Two targets have the same key exactly if they are the same target.  What a target is, is said here
without any bytes.

* `HasLeaf`, `SelectorId` — the images a selector names; an explicit set is the set of its leaves,
  however they are nested, ordered and repeated.
* `TargetId`, `targetId` — the identity of a target.
* `keySelector_delimits`, `keySelector_congr` — the encoding of a selector says all of its identity
  and nothing else, and says where it ends.
* `targetKey_eq_iff` — the key of a target says all of its identity and nothing else.
-/

set_option autoImplicit false

namespace HookKit

open SelfDelimiting

/-! ## Identities -/

/-- A selector that is not an explicit set. -/
inductive LeafId where
  | anyLoaded
  | mainExecutable
  | exactPath (path : Option String)
  | exactUuid (uuid : List Byte)
  | exactHeader (header : Ptr)
deriving DecidableEq

/-- What a selector says itself; fields that its kind does not read are ignored. -/
def leafId (selector : ImageSelector) : Option LeafId :=
  match selector.kind with
  | .anyLoaded => some .anyLoaded
  | .mainExecutable => some .mainExecutable
  | .exactPath => some (.exactPath selector.path)
  | .exactUuid => some (.exactUuid selector.uuid)
  | .exactHeader => some (.exactHeader selector.header)
  | .explicitSet => none

/-- The leaves of a selector, at any depth of nested explicit sets. -/
inductive HasLeaf : ImageSelector → LeafId → Prop
  | leaf {selector : ImageSelector} {l : LeafId} (h : leafId selector = some l) :
      HasLeaf selector l
  | member {selector child : ImageSelector} {set : List (Option ImageSelector)} {l : LeafId}
      (hkind : selector.kind = .explicitSet) (hset : selector.explicitSet = some set)
      (hchild : some child ∈ set) (h : HasLeaf child l) : HasLeaf selector l

/-- The identity of a selector. -/
inductive SelectorId where
  | leaf (leaf : LeafId)
  | explicitSet (leaves : Set LeafId)

def selectorId (selector : ImageSelector) : SelectorId :=
  match leafId selector with
  | some l => .leaf l
  | none => .explicitSet {l | HasLeaf selector l}

/-- The identity of a target. -/
inductive TargetId where
  | symbol (name : Option String) (nameConvention aliasPolicy : Nat) (interior : Bool)
      (definingImage callerImageScope : SelectorId)
  | address (address : Ptr)
  | objc (cls : Ptr ⊕ Option String) (sel : Ptr ⊕ Option String) (methodKind : Nat)
  | memory (address : Ptr) (relative : Bool) (size : Nat) (base : Option SelectorId)
  | swiftVtable

/-- A pointer where there is one, else a name. -/
def pointerOrName (pointer : Ptr) (name : Option String) : Ptr ⊕ Option String :=
  if pointer ≠ 0 then .inl pointer else .inr name

def targetId (stripCode : Ptr → Ptr) : Target → TargetId
  | .symbol t => .symbol t.name t.nameConvention t.aliasPolicy t.interiorAddressPermitted
      (selectorId t.definingImage) (selectorId t.callerImageScope)
  | .address t => .address (if t.mayStripPacOrThumbState then stripCode t.address else t.address)
  | .objc t => .objc (pointerOrName t.cls t.className) (pointerOrName t.sel t.selectorName)
      t.methodKind
  | .memory t => .memory t.address t.addressIsImageRelative t.size
      (if t.addressIsImageRelative then some (selectorId t.baseImage) else none)
  | .swiftVtable => .swiftVtable

/-! ## Values of their C types -/

/-- A UUID of 16 bytes, and a header that is a pointer. -/
def LeafId.Fits : LeafId → Prop
  | .exactUuid uuid => uuid.length = 16
  | .exactHeader header => header < 2 ^ 64
  | _ => True

/-- Every leaf of a selector has its C type. -/
def ImageSelector.Fits (selector : ImageSelector) : Prop := ∀ l, HasLeaf selector l → l.Fits

/-- The fields that go into the key have their C types. -/
def Target.Fits : Target → Prop
  | .symbol t => t.nameConvention < 2 ^ 32 ∧ t.aliasPolicy < 2 ^ 32 ∧ t.definingImage.Fits ∧
      t.callerImageScope.Fits
  | .address t => t.address < 2 ^ 64
  | .objc t => t.cls < 2 ^ 64 ∧ t.sel < 2 ^ 64 ∧ t.methodKind < 2 ^ 32
  | .memory t => t.address < 2 ^ 64 ∧ t.size < 2 ^ 64 ∧
      (t.addressIsImageRelative = true → t.baseImage.Fits)
  | .swiftVtable => True

/-! ## Numbers and strings -/

theorem keyBytes_eq (n value : Nat) : keyBytes n value = LittleEndian.littleEndian n value := by
  induction n generalizing value with
  | zero => rfl
  | succ n ih =>
    rw [keyBytes, List.range_succ_eq_map, List.map_cons, List.map_map, LittleEndian.littleEndian,
      ← ih, keyBytes]
    refine congrArg₂ List.cons (by simp) (List.map_congr_left fun i _ ↦ ?_)
    rw [Function.comp_apply, Nat.mul_succ, Nat.add_comm (8 * i), pow_add, Nat.div_div_eq_div_mul]
    rfl

theorem keyBytes_length (n value : Nat) : (keyBytes n value).length = n := by
  rw [keyBytes, List.length_map, List.length_range]

theorem keyBytes_delimits (n : Nat) : Delimits (· < 256 ^ n) (keyBytes n) := by
  refine .of_length (fun x _ ↦ keyBytes_length n x) fun x y hx hy heq ↦ ?_
  rw [keyBytes_eq, keyBytes_eq] at heq
  -- both are what is read back
  have hread : ∀ z < 256 ^ n,
      LittleEndian.readLE n (LittleEndian.littleEndian n z) 0 = some z :=
    fun z hz ↦ LittleEndian.readLE_littleEndian hz List.prefix_rfl
  have h := hread x hx
  rw [heq, hread y hy] at h
  exact (Option.some.inj h).symm

theorem stringBytes_injective : Function.Injective stringBytes := by
  intro s t h
  have hdata := List.map_injective_iff.2 (fun a b hab ↦ UInt8.toBitVec_inj.1 hab) h
  exact String.toByteArray_inj.1 (ByteArray.ext (Array.toList_inj.1 hdata))

/-- No string is as long as the length that stands for an absent one. -/
theorem keyString_delimits :
    Delimits (fun s : Option String ↦ (keyString s).length ≤ sizeMax) keyString := by
  have hlength : ∀ s : String, (keyString (some s)).length ≤ sizeMax →
      (stringBytes s).length < 2 ^ 64 - 1 := by
    intro s hs
    rw [keyString, List.length_append, keyBytes_length, sizeMax] at hs
    omega
  intro x y r s hx hy heq
  cases x with
  | none =>
    cases y with
    | none => exact ⟨rfl, List.append_cancel_left heq⟩
    | some y =>
      rw [keyString, keyString, List.append_assoc] at heq
      have := (keyBytes_delimits 8 (by norm_num) ((hlength y hy).trans (by norm_num)) heq).1
      have := hlength y hy
      omega
  | some x =>
    cases y with
    | none =>
      rw [keyString, keyString, List.append_assoc] at heq
      have := (keyBytes_delimits 8 ((hlength x hx).trans (by norm_num)) (by norm_num) heq).1
      have := hlength x hx
      omega
    | some y =>
      have hbytes := (keyBytes_delimits 8).counted ((hlength x hx).trans (by norm_num))
        ((hlength y hy).trans (by norm_num)) heq
      exact ⟨congrArg some (stringBytes_injective hbytes.1), hbytes.2⟩

/-! ## Leaves -/

namespace LeafId

/-- The kind of the selector. -/
def code : LeafId → Nat
  | .anyLoaded => 0
  | .mainExecutable => 1
  | .exactPath _ => 2
  | .exactUuid _ => 3
  | .exactHeader _ => 4

/-- What is behind the kind in the key. -/
def payload : LeafId → List Byte
  | .anyLoaded | .mainExecutable => []
  | .exactPath path => keyString path
  | .exactUuid uuid => uuid
  | .exactHeader header => keyBytes 8 header

/-- What is in the key for a leaf. -/
def encode (l : LeafId) : List Byte := keyBytes 4 l.code ++ l.payload

theorem code_lt (l : LeafId) : l.code < 256 ^ 4 := by
  cases l <;> simp only [code] <;> omega

theorem payload_length_le {l : LeafId} (h : l.encode.length ≤ sizeMax) :
    l.payload.length ≤ sizeMax := by
  rw [encode, List.length_append] at h
  omega

theorem delimits :
    Delimits (fun l : LeafId ↦ l.Fits ∧ l.encode.length ≤ sizeMax) encode := by
  rintro x y r s ⟨hx, hxlength⟩ ⟨hy, hylength⟩ heq
  rw [encode, encode, List.append_assoc, List.append_assoc] at heq
  obtain ⟨hcode, hrest⟩ := keyBytes_delimits 4 x.code_lt y.code_lt heq
  have hxpayload := payload_length_le hxlength
  have hypayload := payload_length_le hylength
  -- the kinds are the same, so the payloads have the same form
  cases x <;> cases y <;> try (simp [code] at hcode; done)
  case anyLoaded.anyLoaded => exact ⟨rfl, hrest⟩
  case mainExecutable.mainExecutable => exact ⟨rfl, hrest⟩
  case exactPath.exactPath p q =>
    obtain ⟨rfl, hend⟩ := keyString_delimits hxpayload hypayload hrest
    exact ⟨rfl, hend⟩
  case exactUuid.exactUuid u v =>
    obtain ⟨rfl, hend⟩ := List.append_inj hrest (Eq.trans hx (Eq.symm hy))
    exact ⟨rfl, hend⟩
  case exactHeader.exactHeader p q =>
    obtain ⟨rfl, hend⟩ := keyBytes_delimits 8 hx hy hrest
    exact ⟨rfl, hend⟩

end LeafId

theorem keyLeaf_eq {selector : ImageSelector} {l : LeafId} (h : leafId selector = some l) :
    keyLeaf selector = l.encode := by
  rw [leafId] at h
  rw [keyLeaf, LeafId.encode]
  cases hkind : selector.kind <;> rw [hkind] at h <;> cases h <;> rfl

theorem leafId_eq_none {selector : ImageSelector} :
    leafId selector = none ↔ selector.kind = .explicitSet := by
  rw [leafId]
  cases selector.kind <;> simp

theorem hasLeaf_of_leafId {selector : ImageSelector} {l l' : LeafId}
    (hl : leafId selector = some l) : HasLeaf selector l' ↔ l' = l := by
  constructor
  · intro h
    cases h with
    | leaf h => exact Option.some.inj (h.symm.trans hl)
    | member hkind => rw [leafId_eq_none.2 hkind] at hl; cases hl
  · rintro rfl
    exact .leaf hl

/-! ## Explicit sets -/

theorem mapM_forall₂ {α β : Type} {f : α → Option β} {l : List α} {m : List β}
    (h : l.mapM f = some m) : List.Forall₂ (fun a b ↦ f a = some b) l m := by
  induction l generalizing m with
  | nil =>
    cases h
    exact .nil
  | cons a l ih =>
    rw [List.mapM_cons] at h
    obtain ⟨b, hb, h⟩ := Option.bind_eq_some_iff.1 h
    obtain ⟨rest, hrest, h⟩ := Option.bind_eq_some_iff.1 h
    cases h
    exact .cons hb (ih hrest)

/-- The blobs that are collected are the encodings of the leaves. -/
theorem mem_keySelectorCollect {levels : Nat} {selector : ImageSelector}
    {blobs : List (List Byte)} (h : keySelectorCollect levels selector = some blobs)
    {blob : List Byte} : blob ∈ blobs ↔ ∃ l, HasLeaf selector l ∧ l.encode = blob := by
  induction levels generalizing selector blobs with
  | zero => cases h
  | succ levels ih =>
    rw [keySelectorCollect] at h
    split_ifs at h with hkind
    · split at h
      · cases h
      · rename_i set hset
        obtain ⟨lists, hlists, rfl⟩ := Option.map_eq_some_iff.1 h
        have hall := mapM_forall₂ hlists
        constructor
        · intro hblob
          obtain ⟨blobs, hblobs, hblob⟩ := List.mem_flatten.1 hblob
          obtain ⟨member, hmember, hcollect⟩ := Pointwise.mem_right hall hblobs
          obtain ⟨child, rfl, hchild⟩ := Option.bind_eq_some_iff.1 hcollect
          obtain ⟨l, hl, hencode⟩ := (ih hchild).1 hblob
          exact ⟨l, .member hkind hset hmember hl, hencode⟩
        · rintro ⟨l, hl, rfl⟩
          cases hl with
          | leaf hl =>
            rw [leafId_eq_none.2 hkind] at hl
            cases hl
          | member _ hset' hmember hl =>
            cases hset.symm.trans hset'
            obtain ⟨blobs, hblobs, hcollect⟩ := Pointwise.mem_left hall hmember
            exact List.mem_flatten.2 ⟨blobs, hblobs, (ih hcollect).2 ⟨l, hl, rfl⟩⟩
    · cases h
      obtain ⟨l, hl⟩ := Option.ne_none_iff_exists'.1 (mt leafId_eq_none.1 hkind)
      rw [List.mem_singleton, keyLeaf_eq hl]
      simp only [hasLeaf_of_leafId hl, exists_eq_left]
      exact eq_comm

/-! ### Sorting and dropping repetitions -/

theorem keyBlobLe_total (a b : List Byte) : keyBlobLe a b || keyBlobLe b a := by
  induction a generalizing b with
  | nil => rfl
  | cons x a ih =>
    cases b with
    | nil => rfl
    | cons y b =>
      rw [keyBlobLe, keyBlobLe]
      by_cases heq : x = y
      · rw [if_pos heq, if_pos heq.symm]
        exact ih b
      · rw [if_neg heq, if_neg (Ne.symm heq), Bool.or_eq_true, decide_eq_true_eq,
          decide_eq_true_eq]
        bv_omega

theorem keyBlobLe_trans (a b c : List Byte) (hab : keyBlobLe a b) (hbc : keyBlobLe b c) :
    keyBlobLe a c := by
  induction a generalizing b c with
  | nil => rfl
  | cons x a ih =>
    cases b with
    | nil => cases hab
    | cons y b =>
      cases c with
      | nil => cases hbc
      | cons z c =>
        rw [keyBlobLe] at *
        split_ifs at * with hxz hxy hyz
        · exact ih b c hab hbc
        all_goals
          simp only [decide_eq_true_eq] at *
          bv_omega

theorem keyBlobLe_antisymm (a b : List Byte) (hab : keyBlobLe a b) (hba : keyBlobLe b a) :
    a = b := by
  induction a generalizing b with
  | nil =>
    cases b with
    | nil => rfl
    | cons y b => cases hba
  | cons x a ih =>
    cases b with
    | nil => cases hab
    | cons y b =>
      rw [keyBlobLe] at hab hba
      by_cases heq : x = y
      · rw [if_pos heq] at hab
        rw [if_pos heq.symm] at hba
        rw [heq, ih b hab hba]
      · rw [if_neg heq, decide_eq_true_eq] at hab
        rw [if_neg (Ne.symm heq), decide_eq_true_eq] at hba
        bv_omega

theorem mem_dropRepeats {blobs : List (List Byte)} {blob : List Byte} :
    blob ∈ dropRepeats blobs ↔ blob ∈ blobs := by
  fun_induction dropRepeats blobs with
  | case1 b rest ih => rw [ih]; simp
  | case2 a b rest hne ih => rw [List.mem_cons, ih, List.mem_cons (b := a)]
  | case3 blobs => rfl

/-- Blobs of a sorted list without repetitions. -/
def Ascending (a b : List Byte) : Prop := keyBlobLe a b = true ∧ a ≠ b

instance : Std.Irrefl Ascending := ⟨fun _ h ↦ h.2 rfl⟩

instance : Std.Antisymm Ascending := ⟨fun a b hab hba ↦ keyBlobLe_antisymm a b hab.1 hba.1⟩

theorem dropRepeats_ascending {blobs : List (List Byte)}
    (h : blobs.Pairwise fun a b ↦ keyBlobLe a b = true) :
    (dropRepeats blobs).Pairwise Ascending := by
  fun_induction dropRepeats blobs with
  | case1 b rest ih => exact ih (List.pairwise_cons.1 h).2
  | case2 a b rest hne ih =>
    obtain ⟨hfirst, hrest⟩ := List.pairwise_cons.1 h
    refine List.pairwise_cons.2 ⟨fun c hc ↦ ⟨hfirst c (mem_dropRepeats.1 hc), ?_⟩, ih hrest⟩
    -- `a` is strictly below `b`, and `b` is below the others
    rintro rfl
    rcases List.mem_cons.1 (mem_dropRepeats.1 hc) with heq | hmem
    · exact hne heq
    · exact hne (keyBlobLe_antisymm _ _ (hfirst b List.mem_cons_self)
        ((List.pairwise_cons.1 hrest).1 _ hmem))
  | case3 blobs hshort =>
    match blobs, hshort with
    | [], _ => exact .nil
    | [a], _ => exact List.pairwise_singleton _ _
    | a :: b :: rest, hshort => exact absurd rfl (hshort a b rest)

/-! ## Selectors -/

/-- A blob behind its length. -/
def lengthPrefixed (blob : List Byte) : List Byte := keyBytes 8 blob.length ++ blob

theorem lengthPrefixed_delimits :
    Delimits (fun blob : List Byte ↦ blob.length < 256 ^ 8) lengthPrefixed :=
  (keyBytes_delimits 8).counted

/-- What the key of an explicit set is made of. -/
structure SetKey (selector : ImageSelector) (children : List (List Byte)) (key : List Byte) :
    Prop where
  ascending : children.Pairwise Ascending
  leaves : ∀ blob, blob ∈ children ↔ ∃ l, HasLeaf selector l ∧ l.encode = blob
  key : key = keyBytes 4 5 ++ (keyBytes 8 children.length ++
    (children.map lengthPrefixed).flatten)

/-- The key of an accepted selector. -/
theorem keySelector_cases {selector : ImageSelector} {key : List Byte}
    (h : keySelector selector = some key) :
    (∃ l, leafId selector = some l ∧ key = l.encode) ∨
      leafId selector = none ∧ ∃ children, SetKey selector children key := by
  rw [keySelector] at h
  split_ifs at h with hkind
  · obtain ⟨blobs, hblobs, h⟩ := Option.bind_eq_some_iff.1 h
    cases h
    refine .inr ⟨leafId_eq_none.2 hkind, dropRepeats (blobs.mergeSort keyBlobLe),
      dropRepeats_ascending ?_, fun blob ↦ ?_, ?_⟩
    · exact List.pairwise_mergeSort keyBlobLe_trans keyBlobLe_total blobs
    · rw [mem_dropRepeats, List.mem_mergeSort, mem_keySelectorCollect hblobs]
    · rw [hkind, List.append_assoc]
      rfl
  · cases h
    obtain ⟨l, hl⟩ := Option.ne_none_iff_exists'.1 (mt leafId_eq_none.1 hkind)
    exact .inl ⟨l, hl, keyLeaf_eq hl⟩

theorem length_le_flatten {α : Type} {l : List (List α)} {x : List α} (h : x ∈ l) :
    x.length ≤ l.flatten.length := by
  obtain ⟨before, after, rfl⟩ := List.append_of_mem h
  rw [List.flatten_append, List.flatten_cons, List.length_append, List.length_append]
  omega

namespace SetKey

variable {selector : ImageSelector} {children : List (List Byte)} {key : List Byte}

/-- No child is longer than the key. -/
theorem child_le (h : SetKey selector children key) {blob : List Byte} (hblob : blob ∈ children) :
    8 + blob.length ≤ key.length := by
  have hmem := length_le_flatten (List.mem_map_of_mem (f := lengthPrefixed) hblob)
  rw [lengthPrefixed, List.length_append, keyBytes_length] at hmem
  rw [h.key, List.length_append, List.length_append]
  omega

/-- There are not more children than the key has bytes. -/
theorem count_le (h : SetKey selector children key) : children.length ≤ key.length := by
  have hcount : ∀ l : List (List Byte), l.length ≤ ((l.map lengthPrefixed).flatten).length := by
    intro l
    induction l with
    | nil => exact Nat.le_refl 0
    | cons blob l ih =>
      rw [List.map_cons, List.flatten_cons, List.length_append, lengthPrefixed,
        List.length_append, keyBytes_length, List.length_cons]
      omega
  have := hcount children
  rw [h.key, List.length_append, List.length_append]
  omega

end SetKey

/-- **The key of a selector says its identity**, and where it ends. -/
theorem keySelector_delimits {a b : ImageSelector} {ka kb r s : List Byte}
    (ha : keySelector a = some ka) (hb : keySelector b = some kb) (hfa : a.Fits) (hfb : b.Fits)
    (hla : ka.length ≤ sizeMax) (hlb : kb.length ≤ sizeMax) (heq : ka ++ r = kb ++ s) :
    selectorId a = selectorId b ∧ r = s := by
  have hfive : 5 < 256 ^ 4 := by omega
  rcases keySelector_cases ha with ⟨l, hl, rfl⟩ | ⟨hnone, children, hset⟩
  · have hfits := hfa l (.leaf hl)
    rcases keySelector_cases hb with ⟨m, hm, rfl⟩ | ⟨hnone, children, hset⟩
    · obtain ⟨rfl, hrest⟩ := LeafId.delimits ⟨hfits, hla⟩ ⟨hfb m (.leaf hm), hlb⟩ heq
      rw [selectorId, selectorId, hl, hm]
      exact ⟨rfl, hrest⟩
    · -- no leaf has the kind of a set
      rw [LeafId.encode, hset.key, List.append_assoc, List.append_assoc] at heq
      have hkind := (keyBytes_delimits 4 l.code_lt hfive heq).1
      cases l <;> simp [LeafId.code] at hkind
  · rcases keySelector_cases hb with ⟨m, hm, rfl⟩ | ⟨hnone', children', hset'⟩
    · rw [LeafId.encode, hset.key, List.append_assoc, List.append_assoc] at heq
      have hkind := (keyBytes_delimits 4 hfive m.code_lt heq).1
      cases m <;> simp [LeafId.code] at hkind
    · have hbound : ∀ {selector children key}, SetKey selector children key →
          key.length ≤ sizeMax → children.length < 256 ^ 8 ∧
            ∀ blob ∈ children, blob.length < 256 ^ 8 := by
        intro selector children key hset hlength
        rw [sizeMax] at hlength
        have := hset.count_le
        refine ⟨by omega, fun blob hblob ↦ ?_⟩
        have := hset.child_le hblob
        omega
      obtain ⟨hcount, hchildren⟩ := hbound hset hla
      obtain ⟨hcount', hchildren'⟩ := hbound hset' hlb
      rw [hset.key, hset'.key, List.append_assoc, List.append_assoc, List.append_assoc,
        List.append_assoc] at heq
      have hbody := List.append_cancel_left heq
      obtain ⟨hlength, hitems⟩ := keyBytes_delimits 8 hcount hcount' hbody
      obtain ⟨rfl, hrest⟩ := lengthPrefixed_delimits.flatten hchildren hchildren' hlength hitems
      refine ⟨?_, hrest⟩
      rw [selectorId, selectorId, hnone, hnone']
      refine congrArg SelectorId.explicitSet (Set.ext fun l ↦ ?_)
      -- a leaf of one set is encoded in both, and its encoding is its own
      have hshared : ∀ {c d kc kd}, SetKey c children kc → SetKey d children kd → c.Fits →
          d.Fits → kc.length ≤ sizeMax → HasLeaf c l → HasLeaf d l := by
        intro c d kc kd hc hd hfc hfd hlc hl
        have hmem := (hc.leaves _).2 ⟨l, hl, rfl⟩
        obtain ⟨m, hm, hencode⟩ := (hd.leaves _).1 hmem
        have hle : l.encode.length ≤ sizeMax := by
          have := hc.child_le hmem
          omega
        obtain rfl := LeafId.delimits.injective ⟨hfd m hm, hencode ▸ hle⟩ ⟨hfc l hl, hle⟩ hencode
        exact hm
      exact ⟨hshared hset hset' hfa hfb hla, hshared hset' hset hfb hfa hlb⟩

/-- **The key of a selector says nothing else.** -/
theorem keySelector_congr {a b : ImageSelector} {ka kb : List Byte}
    (ha : keySelector a = some ka) (hb : keySelector b = some kb)
    (heq : selectorId a = selectorId b) : ka = kb := by
  rw [selectorId, selectorId] at heq
  rcases keySelector_cases ha with ⟨l, hl, rfl⟩ | ⟨hnone, children, hset⟩ <;>
    rcases keySelector_cases hb with ⟨m, hm, rfl⟩ | ⟨hnone', children', hset'⟩
  · rw [hl, hm] at heq
    cases heq
    rfl
  · rw [hl, hnone'] at heq
    cases heq
  · rw [hnone, hm] at heq
    cases heq
  · rw [hnone, hnone'] at heq
    have hleaves := SelectorId.explicitSet.inj heq
    have hchildren : children = children' :=
      hset.ascending.eq_of_mem_iff hset'.ascending fun blob ↦ by
        rw [hset.leaves, hset'.leaves]
        exact exists_congr fun l ↦ and_congr_left fun _ ↦ Set.ext_iff.1 hleaves l
    rw [hset.key, hset'.key, hchildren]

/-! ## Targets -/

theorem keyFlag_delimits : Delimits (fun _ : Bool ↦ True) keyFlag := by
  refine .of_length (fun b _ ↦ keyBytes_length 1 b.toNat) fun b c _ _ heq ↦ ?_
  cases b <;> cases c <;> first | rfl | exact absurd heq (by decide)

theorem kind_code_lt (kind : TargetKind) : kind.code < 256 ^ 4 := by
  cases kind <;> simp only [TargetKind.code] <;> omega

theorem kind_code_injective {kind kind' : TargetKind} (h : kind.code = kind'.code) :
    kind = kind' := by
  cases kind <;> cases kind' <;> first | rfl | exact absurd h (by decide)

/-- The part of a method key for its class or its selector. -/
def keyPointerOrName (pointer : Ptr) (name : Option String) : List Byte :=
  keyFlag (pointer != 0) ++ if pointer ≠ 0 then keyBytes 8 pointer else keyString name

theorem keyPointerOrName_delimits {pointer pointer' : Ptr} {name name' : Option String}
    {r s : List Byte} (hpointer : pointer < 2 ^ 64) (hpointer' : pointer' < 2 ^ 64)
    (hlength : (keyPointerOrName pointer name).length ≤ sizeMax)
    (hlength' : (keyPointerOrName pointer' name').length ≤ sizeMax)
    (heq : keyPointerOrName pointer name ++ r = keyPointerOrName pointer' name' ++ s) :
    pointerOrName pointer name = pointerOrName pointer' name' ∧ r = s := by
  rw [keyPointerOrName, List.length_append] at hlength hlength'
  rw [keyPointerOrName, keyPointerOrName, List.append_assoc, List.append_assoc] at heq
  obtain ⟨hflag, hrest⟩ := keyFlag_delimits trivial trivial heq
  rw [pointerOrName, pointerOrName]
  by_cases hzero : pointer = 0
  · have hzero' : pointer' = 0 := by simpa [hzero] using hflag.symm
    rw [if_neg (not_not.2 hzero)] at hlength hrest ⊢
    rw [if_neg (not_not.2 hzero')] at hlength' hrest ⊢
    obtain ⟨rfl, hend⟩ := keyString_delimits (by dsimp only; omega) (by dsimp only; omega) hrest
    exact ⟨rfl, hend⟩
  · have hzero' : pointer' ≠ 0 := by
      rintro rfl
      exact hzero (by simpa using hflag)
    rw [if_pos hzero] at hrest ⊢
    rw [if_pos hzero'] at hrest ⊢
    obtain ⟨rfl, hend⟩ := keyBytes_delimits 8 hpointer hpointer' hrest
    exact ⟨rfl, hend⟩

theorem keyPointerOrName_congr {pointer pointer' : Ptr} {name name' : Option String}
    (h : pointerOrName pointer name = pointerOrName pointer' name') :
    keyPointerOrName pointer name = keyPointerOrName pointer' name' := by
  rw [pointerOrName, pointerOrName] at h
  by_cases hzero : pointer = 0 <;> by_cases hzero' : pointer' = 0
  · rw [if_neg (not_not.2 hzero), if_neg (not_not.2 hzero')] at h
    rw [hzero, hzero', Sum.inr.inj h]
  · rw [if_neg (not_not.2 hzero), if_pos hzero'] at h
    cases h
  · rw [if_pos hzero, if_neg (not_not.2 hzero')] at h
    cases h
  · rw [if_pos hzero, if_pos hzero'] at h
    rw [keyPointerOrName, keyPointerOrName, Sum.inl.inj h, if_pos hzero', if_pos hzero']

/-- What is behind the kind in the key of a target. -/
inductive KeyFields (stripCode : Ptr → Ptr) : Target → List Byte → Prop
  | symbol {t : SymbolTarget} {defining scope : List Byte}
      (hdefining : keySelector t.definingImage = some defining)
      (hscope : keySelector t.callerImageScope = some scope) :
      KeyFields stripCode (.symbol t) (keyString t.name ++ (keyBytes 4 t.nameConvention ++
        (keyBytes 4 t.aliasPolicy ++ (keyFlag t.interiorAddressPermitted ++ (defining ++ scope)))))
  | address {t : AddressTarget} : KeyFields stripCode (.address t)
      (keyBytes 8 (if t.mayStripPacOrThumbState then stripCode t.address else t.address))
  | objc {t : ObjcTarget} : KeyFields stripCode (.objc t) (keyPointerOrName t.cls t.className ++
      (keyPointerOrName t.sel t.selectorName ++ keyBytes 4 t.methodKind))
  | memory {t : MemoryTarget} {base : List Byte}
      (hbase : (if t.addressIsImageRelative then keySelector t.baseImage else some []) =
        some base) :
      KeyFields stripCode (.memory t) (keyBytes 8 t.address ++ (keyFlag t.addressIsImageRelative ++
        (keyBytes 8 t.size ++ base)))
  | swiftVtable : KeyFields stripCode .swiftVtable []

section

variable {stripCode : Ptr → Ptr} {a b : Target} {ka kb : List Byte}

theorem targetKey_fields (h : targetKey stripCode a = some ka) :
    ∃ fields, KeyFields stripCode a fields ∧ ka = keyBytes 4 a.kind.code ++ fields := by
  rw [targetKey.eq_def] at h
  cases a with
  | symbol t =>
    obtain ⟨defining, hdefining, h⟩ := Option.bind_eq_some_iff.1 h
    obtain ⟨scope, hscope, h⟩ := Option.bind_eq_some_iff.1 h
    cases h
    refine ⟨_, .symbol hdefining hscope, ?_⟩
    simp only [List.append_assoc]
  | address t =>
    cases h
    exact ⟨_, .address, rfl⟩
  | objc t =>
    cases h
    refine ⟨_, .objc, ?_⟩
    simp only [keyPointerOrName, List.append_assoc]
  | memory t =>
    dsimp only at h
    split_ifs at h with hrelative
    · obtain ⟨base, hbase, h⟩ := Option.bind_eq_some_iff.1 h
      cases h
      refine ⟨_, .memory ((if_pos hrelative).trans hbase), ?_⟩
      simp only [List.append_assoc]
    · cases h
      refine ⟨_, .memory (if_neg hrelative), ?_⟩
      simp only [List.append_assoc]
  | swiftVtable =>
    cases h
    exact ⟨_, .swiftVtable, rfl⟩

/-- The fields of two targets of one kind say their identities. -/
theorem KeyFields.targetId_eq (hstrip : ∀ p < 2 ^ 64, stripCode p < 2 ^ 64)
    (ha : KeyFields stripCode a ka) (hb : KeyFields stripCode b kb) (hkind : a.kind = b.kind)
    (hfa : a.Fits) (hfb : b.Fits) (hla : ka.length ≤ sizeMax) (hlb : kb.length ≤ sizeMax)
    (heq : ka = kb) : targetId stripCode a = targetId stripCode b := by
  cases ha <;> cases hb <;> try cases hkind
  case symbol.symbol t d s hd hs t' d' s' hd' hs' =>
    simp only [List.length_append] at hla hlb
    obtain ⟨hname, heq⟩ := keyString_delimits (by dsimp only; omega) (by dsimp only; omega) heq
    obtain ⟨hconvention, heq⟩ := keyBytes_delimits 4 hfa.1 hfb.1 heq
    obtain ⟨halias, heq⟩ := keyBytes_delimits 4 hfa.2.1 hfb.2.1 heq
    obtain ⟨hinterior, heq⟩ := keyFlag_delimits trivial trivial heq
    obtain ⟨hdefining, heq⟩ := keySelector_delimits hd hd' hfa.2.2.1 hfb.2.2.1 (by omega)
      (by omega) heq
    obtain ⟨hscope, -⟩ := keySelector_delimits hs hs' hfa.2.2.2 hfb.2.2.2 (by omega) (by omega)
      (congrArg (· ++ []) heq)
    rw [targetId, targetId, hname, hconvention, halias, hinterior, hdefining, hscope]
  case address.address t t' =>
    have hcode : ∀ t : AddressTarget, t.address < 2 ^ 64 →
        (if t.mayStripPacOrThumbState then stripCode t.address else t.address) < 2 ^ 64 := by
      intro t ht
      split
      · exact hstrip _ ht
      · exact ht
    rw [targetId, targetId, (keyBytes_delimits 8).injective (hcode t hfa) (hcode t' hfb) heq]
  case objc.objc t t' =>
    simp only [List.length_append] at hla hlb
    obtain ⟨hcls, heq⟩ := keyPointerOrName_delimits hfa.1 hfb.1 (by omega) (by omega) heq
    obtain ⟨hsel, heq⟩ := keyPointerOrName_delimits hfa.2.1 hfb.2.1 (by omega) (by omega) heq
    rw [targetId, targetId, hcls, hsel, (keyBytes_delimits 4).injective hfa.2.2 hfb.2.2 heq]
  case memory.memory t base hbase t' base' hbase' =>
    simp only [List.length_append] at hla hlb
    obtain ⟨haddress, heq⟩ := keyBytes_delimits 8 hfa.1 hfb.1 heq
    obtain ⟨hrelative, heq⟩ := keyFlag_delimits trivial trivial heq
    obtain ⟨hsize, heq⟩ := keyBytes_delimits 8 hfa.2.1 hfb.2.1 heq
    rw [targetId, targetId, haddress, hrelative, hsize]
    -- only a relative address has a base
    by_cases hrel : t'.addressIsImageRelative = true
    · rw [hrelative, if_pos hrel] at hbase
      rw [if_pos hrel] at hbase'
      rw [if_pos hrel, if_pos hrel, (keySelector_delimits hbase hbase' (hfa.2.2 (hrelative ▸ hrel))
        (hfb.2.2 hrel) (by omega) (by omega) (congrArg (· ++ []) heq)).1]
    · rw [if_neg hrel, if_neg hrel]
  case swiftVtable.swiftVtable => rfl

/-- The fields of a target say nothing else. -/
theorem KeyFields.congr (ha : KeyFields stripCode a ka) (hb : KeyFields stripCode b kb)
    (h : targetId stripCode a = targetId stripCode b) : ka = kb := by
  cases ha <;> cases hb <;> try cases h
  case symbol.symbol t d s hd hs t' d' s' hd' hs' =>
    simp only [targetId, TargetId.symbol.injEq] at h
    obtain ⟨hname, hconvention, halias, hinterior, hdefining, hscope⟩ := h
    rw [hname, hconvention, halias, hinterior, keySelector_congr hd hd' hdefining,
      keySelector_congr hs hs' hscope]
  case address.address t t' =>
    rw [TargetId.address.inj h]
  case objc.objc t t' =>
    simp only [targetId, TargetId.objc.injEq] at h
    rw [keyPointerOrName_congr h.1, keyPointerOrName_congr h.2.1, h.2.2]
  case memory.memory t base hbase t' base' hbase' =>
    simp only [targetId, TargetId.memory.injEq] at h
    obtain ⟨haddress, hrelative, hsize, hid⟩ := h
    have hbases : base = base' := by
      by_cases hrel : t'.addressIsImageRelative = true
      · rw [hrelative, if_pos hrel] at hbase hid
        rw [if_pos hrel] at hbase' hid
        exact keySelector_congr hbase hbase' (Option.some.inj hid)
      · rw [hrelative, if_neg hrel] at hbase
        rw [if_neg hrel] at hbase'
        exact Option.some.inj (hbase.symm.trans hbase')
    rw [haddress, hrelative, hsize, hbases]
  case swiftVtable.swiftVtable => rfl

theorem kind_eq_of_targetId (h : targetId stripCode a = targetId stripCode b) :
    a.kind = b.kind := by
  cases a <;> cases b <;> first | rfl | cases h

/-- **Ownership keys are canonical**: two targets have the same key exactly if they have the same
identity. -/
theorem targetKey_eq_iff (hstrip : ∀ p < 2 ^ 64, stripCode p < 2 ^ 64)
    (ha : targetKey stripCode a = some ka) (hb : targetKey stripCode b = some kb) (hfa : a.Fits)
    (hfb : b.Fits) (hla : ka.length ≤ sizeMax) (hlb : kb.length ≤ sizeMax) :
    ka = kb ↔ targetId stripCode a = targetId stripCode b := by
  obtain ⟨fields, hfields, rfl⟩ := targetKey_fields ha
  obtain ⟨fields', hfields', rfl⟩ := targetKey_fields hb
  rw [List.length_append] at hla hlb
  constructor
  · intro heq
    obtain ⟨hkind, hrest⟩ := keyBytes_delimits 4 (kind_code_lt _) (kind_code_lt _) heq
    exact hfields.targetId_eq hstrip hfields' (kind_code_injective hkind) hfa hfb (by omega)
      (by omega) hrest
  · intro h
    rw [kind_eq_of_targetId h, hfields.congr hfields' h]

end

/-- The symbol `any-target`, in the images of a caller scope. -/
def anyTarget (scope : ImageSelector) : Target := .symbol {
  name := some "any-target", nameConvention := 0, visibility := 0
  definingImage := .zero, callerImageScope := scope, aliasPolicy := 0
  interiorAddressPermitted := false }

/-- The explicit set of some selectors. -/
def ImageSelector.explicit (set : List (Option ImageSelector)) : ImageSelector :=
  .mk .explicitSet none (List.replicate 16 0) 0 (some set)

theorem anyTarget_key {scope : ImageSelector} {key : List Byte}
    (h : keySelector scope = some key) : targetKey id (anyTarget scope) =
      some (keyBytes 4 0 ++ (keyString (some "any-target") ++ keyBytes 4 0 ++ keyBytes 4 0 ++
        keyFlag false ++ keyBytes 4 0 ++ key)) := by
  rw [targetKey.eq_def, anyTarget]
  dsimp only
  rw [h]
  rfl

theorem keySelector_explicit {set : List (Option ImageSelector)} {blobs children : List (List Byte)}
    (hcollect : keySelectorCollect 33 (.explicit set) = some blobs)
    (hsorted : blobs.Pairwise fun a b ↦ keyBlobLe a b = true)
    (hchildren : dropRepeats blobs = children) : keySelector (.explicit set) =
      some (keyBytes 4 5 ++ keyBytes 8 children.length ++
        (children.map lengthPrefixed).flatten) := by
  have hkind : (ImageSelector.explicit set).kind = .explicitSet := rfl
  rw [keySelector, if_pos hkind, hcollect, hkind]
  dsimp only [Option.bind_eq_bind, Option.bind_some]
  rw [List.mergeSort_of_pairwise hsorted, hchildren]
  rfl

theorem explicit_once : keySelector (.explicit [some .zero]) =
    some (keyBytes 4 5 ++ keyBytes 8 1 ++ (keyBytes 8 4 ++ keyBytes 4 0)) :=
  @keySelector_explicit _ [keyBytes 4 0] _ rfl (List.pairwise_singleton _ _) rfl

theorem explicit_twice : keySelector (.explicit [some .zero, some (.explicit [some .zero])]) =
    some (keyBytes 4 5 ++ keyBytes 8 1 ++ (keyBytes 8 4 ++ keyBytes 4 0)) :=
  @keySelector_explicit _ [keyBytes 4 0, keyBytes 4 0] _ rfl (List.pairwise_pair.2 rfl) rfl

theorem hasLeaf_explicit {set : List (Option ImageSelector)} {l : LeafId} :
    HasLeaf (.explicit set) l ↔ ∃ child, some child ∈ set ∧ HasLeaf child l := by
  constructor
  · intro h
    cases h with
    | leaf h => cases h
    | member _ hset hchild h =>
      cases hset
      exact ⟨_, hchild, h⟩
  · rintro ⟨child, hchild, h⟩
    exact .member rfl rfl hchild h

theorem hasLeaf_zero {l : LeafId} : HasLeaf .zero l ↔ l = .anyLoaded := hasLeaf_of_leafId rfl

/-- A set and the same set with itself as a member have one key. -/
theorem explicit_twice_key : ∃ ka kb, targetKey id (anyTarget (.explicit [some .zero])) = some ka ∧
    targetKey id (anyTarget (.explicit [some .zero, some (.explicit [some .zero])])) = some kb ∧
      ka = kb := by
  have hfits : ∀ set : List (Option ImageSelector),
      (∀ child, some child ∈ set → ∀ l, HasLeaf child l → l = .anyLoaded) →
      (anyTarget (.explicit set)).Fits := by
    intro set hset
    refine ⟨Nat.two_pow_pos 32, Nat.two_pow_pos 32, fun l hl ↦ ?_, fun l hl ↦ ?_⟩
    · rw [hasLeaf_zero.1 hl]
      trivial
    · obtain ⟨child, hchild, hl⟩ := hasLeaf_explicit.1 hl
      rw [hset child hchild l hl]
      trivial
  have honce : ∀ child, some child ∈ [some ImageSelector.zero] → ∀ l, HasLeaf child l →
      l = .anyLoaded := by
    intro child hchild l hl
    cases List.mem_singleton.1 hchild
    exact hasLeaf_zero.1 hl
  have hleaves : ∀ l, HasLeaf (.explicit [some .zero]) l ↔
      HasLeaf (.explicit [some .zero, some (.explicit [some .zero])]) l := by
    intro l
    simp [hasLeaf_explicit, hasLeaf_zero]
  have htwice : ∀ child, some child ∈ [some ImageSelector.zero, some (.explicit [some .zero])] →
      ∀ l, HasLeaf child l → l = .anyLoaded := by
    intro child hchild l hl
    obtain ⟨member, hmember, hl⟩ :=
      hasLeaf_explicit.1 ((hleaves l).2 (hasLeaf_explicit.2 ⟨child, hchild, hl⟩))
    exact honce member hmember l hl
  refine ⟨_, _, anyTarget_key explicit_once, anyTarget_key explicit_twice,
    (targetKey_eq_iff (fun _ h ↦ h) (anyTarget_key explicit_once) (anyTarget_key explicit_twice)
      (hfits _ honce) (hfits _ htwice) (by decide +kernel) (by decide +kernel)).2 ?_⟩
  refine congrArg (TargetId.symbol (some "any-target") 0 0 false (.leaf .anyLoaded)) ?_
  exact congrArg SelectorId.explicitSet (Set.ext hleaves)

/-- A selector and the set that holds just this selector name the same images, but are different
targets. -/
theorem direct_ne_explicit : ∃ ka kb, targetKey id (anyTarget .zero) = some ka ∧
    targetKey id (anyTarget (.explicit [some .zero])) = some kb ∧
      (∀ l, HasLeaf .zero l ↔ HasLeaf (.explicit [some .zero]) l) ∧ ka ≠ kb := by
  have hdirect : keySelector .zero = some (keyBytes 4 0) := rfl
  refine ⟨_, _, anyTarget_key hdirect, anyTarget_key explicit_once, fun l ↦ ?_, by decide +kernel⟩
  simp [hasLeaf_explicit]

end HookKit
