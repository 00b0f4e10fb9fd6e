import HookKit.Core.Base
import HookKit.Lib.Checked
import HookKit.Lib.Tokens
import HookKit.Lib.StableSort

/-!
# Explicit backend selection

The end of `HKRuntime.c`: which engines a runtime keeps under a list of backends, and in which
order.

* `backendTokenIndex` — the walk over the list; it counts the tokens it passes in an `int`, and is
  `none` where that overflows.
* `applyBackendOverride` — the selection, on the parallel arrays of a runtime.
* `BackendOrder` — what the list asks for.
* `applyBackendOverride_order` — the selection does that for lists of at most `2 ^ 30` tokens.
-/

set_option autoImplicit false

namespace HookKit.Backends

open Checked Tokens StableSort

/-! ## Names -/

/-- A C string: its bytes up to the NUL. -/
abbrev Text := List Byte

/-- The characters of a literal. -/
def ascii (literal : String) : Text := literal.toList.map fun c ↦ BitVec.ofNat 8 c.toNat

/-- `hk_engine_capabilities_t`, the two names of an engine. -/
structure Labels where
  engineId : Option Text
  backendGroup : Option Text
deriving DecidableEq

/-- Folding a letter to lower case. -/
def lower (c : Byte) : Byte := if 0x41#8 ≤ c ∧ c ≤ 0x5a#8 then c + 32#8 else c

/-- `hk_ci_span_eq`. -/
def ciSpanEq : Text → Text → Bool
  | [], [] => true
  | a :: text, b :: id => lower a = lower b && ciSpanEq text id
  | _, _ => false

/-- `hk_backend_span_matches`. -/
def backendSpanMatches (token id : Text) : Bool :=
  if ciSpanEq token id then true
  else if ciSpanEq token (ascii "native") && ciSpanEq id (ascii "HookKit") then true
  else (ascii "provider-").isPrefixOf id && ciSpanEq token (id.drop (ascii "provider-").length)

/-- `hk_engine_group_token`. -/
def engineGroupToken (labels : Labels) (engineId : Text) : Text :=
  match labels.backendGroup with
  | some (c :: group) => c :: group
  | _ => engineId

/-! ## The list -/

/-- What stands between the tokens of a list. -/
def isSeparator (c : Byte) : Bool := c = 0x2c#8 ∨ c = 0x20#8 ∨ c = 0x09#8

/-- `INT_MAX`. -/
def intMax : Nat := 2 ^ 31 - 1

/-- The loop of `hk_backend_token_index` at `p`, after `idx` tokens. -/
def tokenIndexFrom (id p : Text) (idx : Nat) : Option Int :=
  match hstart : p.dropWhile isSeparator with
  | [] => some (-1)
  | c :: rest =>
    let token := (c :: rest).takeWhile fun c ↦ !isSeparator c
    if backendSpanMatches token id then some idx
    else if idx = intMax then none
    else tokenIndexFrom id ((c :: rest).dropWhile fun c ↦ !isSeparator c) (idx + 1)
termination_by p.length
decreasing_by exact skip_shorter hstart

/-- `hk_backend_token_index`. -/
def backendTokenIndex (list id : Text) : Option Int := tokenIndexFrom id list 0

/-- `hk_engine_token_rank`. -/
def engineTokenRank (labels : Option Labels) (list : Text) : Option Int :=
  match labels with
  | none => some (-1)
  | some labels =>
    match labels.engineId with
    | none => some (-1)
    | some engineId => do
      let a ← backendTokenIndex list (engineGroupToken labels engineId)
      let b ← backendTokenIndex list engineId
      if a < 0 then some b
      else if b < 0 then some a
      else some (if a < b then a else b)

/-! ## The arrays -/

/-- `HK_BACKEND_UNRANKED`. -/
def backendUnranked : Int := 2 ^ 30

variable {ν κ : Type} (describe : ν → Option Labels)

/-- The engines of a runtime: `engines`, `engine_ctxs` and `engine_testing`. -/
structure EngineArrays (ν κ : Type) where
  engines : List ν
  engineCtxs : List κ
  engineTesting : List Bool
  length_ctxs : engineCtxs.length = engines.length
  length_testing : engineTesting.length = engines.length

namespace EngineArrays

variable (runtime : EngineArrays ν κ)

/-- A position in the arrays. -/
abbrev Slot : Type := Fin runtime.engines.length

def engine (i : runtime.Slot) : ν := runtime.engines.get i

def ctx (i : runtime.Slot) : κ := runtime.engineCtxs.get (i.cast runtime.length_ctxs.symm)

def testing (i : runtime.Slot) : Bool :=
  runtime.engineTesting.get (i.cast runtime.length_testing.symm)

/-- The three arrays, with what stands at the positions of `order`. -/
def pick (order : List runtime.Slot) : EngineArrays ν κ where
  engines := order.map runtime.engine
  engineCtxs := order.map runtime.ctx
  engineTesting := order.map runtime.testing
  length_ctxs := by simp
  length_testing := by simp

/-- What the selection reads of the engine at a position; a NULL engine, or one without `describe`,
has no labels. -/
def labels (i : runtime.Slot) : Option Labels := describe (runtime.engine i)

/-- Whether the selection drops the engine at a position. -/
def dropped (list : Text) (i : runtime.Slot) : Option Bool :=
  match (runtime.labels describe i).bind (·.engineId) with
  | none => some true
  | some id =>
    if id = ascii "objc" then some false
    else (engineTokenRank (runtime.labels describe i) list).map fun rank ↦ rank < 0

/-- The key of an engine that is kept. -/
def sortKey (order : Option Text) (i : runtime.Slot) : Option Int :=
  let rank := match order with
    | some list => engineTokenRank (runtime.labels describe i) list
    | none => some (-1)
  rank.map fun rank ↦ if rank ≥ 0 then rank else backendUnranked + i

/-- `hk_runtime_retain_ordered_engines`. -/
def retainOrderedEngines (drop : List Bool) (order : Option Text) : Option (EngineArrays ν κ) := do
  let kept := (List.finRange _).filter fun i : runtime.Slot ↦ drop[i.val]? = some false
  let keyed ← kept.mapM fun i ↦ (runtime.sortKey describe order i).map fun key ↦ (i, key)
  some (runtime.pick ((insertionSort Prod.snd keyed).map Prod.fst))

/-- `hk_runtime_apply_backend_override`. -/
def applyBackendOverride (backendIds : Option Text) : Option (EngineArrays ν κ) :=
  match backendIds with
  | none => some runtime
  | some list =>
    if runtime.engines.length = 0 then some runtime
    else do
      let drop ← (List.finRange _).mapM fun i : runtime.Slot ↦ runtime.dropped describe list i
      runtime.retainOrderedEngines describe drop (some list)

end EngineArrays

/-! ## What a list asks for -/

/-- The tokens of a list. -/
def tokens (list : Text) : List Text := words isSeparator list

/-- Two spellings that differ in the case of letters only. -/
def SameLetters (a b : Text) : Prop := a.map lower = b.map lower

/-- A token names an identifier: spelled out, by the alias of `HookKit`, or without the prefix of
the providers. -/
def Names (token id : Text) : Prop :=
  SameLetters token id ∨
  SameLetters token (ascii "native") ∧ SameLetters id (ascii "HookKit") ∨
  ascii "provider-" <+: id ∧ SameLetters token (id.drop (ascii "provider-").length)

instance (a b : Text) : Decidable (SameLetters a b) :=
  inferInstanceAs (Decidable (a.map lower = b.map lower))

instance (token id : Text) : Decidable (Names token id) :=
  inferInstanceAs (Decidable (_ ∨ _ ∧ _ ∨ _ ∧ _))

/-- The names an engine goes by: its group, if it has one, and its id. -/
def Labels.all (labels : Labels) : List Text :=
  (labels.backendGroup.filter (· ≠ [])).toList ++ labels.engineId.toList

/-- A token names an engine. -/
def namesEngine (labels : Option Labels) (token : Text) : Bool :=
  labels.any fun labels ↦ labels.all.any fun id ↦ Names token id

/-- The position of the first token that names an engine; the number of tokens, if none does. -/
def place (list : Text) (labels : Option Labels) : Nat := (tokens list).findIdx (namesEngine labels)

/-- The list names an engine. -/
def Named (list : Text) (labels : Option Labels) : Prop := ∃ token ∈ tokens list,
    namesEngine labels token

/-- The engine has an id. -/
def Declared (labels : Option Labels) : Prop := (labels.bind (·.engineId)).isSome

/-- An engine for Objective-C messages. -/
def IsObjc (labels : Option Labels) : Prop := labels.bind (·.engineId) = some (ascii "objc")

instance (labels : Option Labels) : Decidable (Declared labels) :=
    inferInstanceAs (Decidable (_ = true))

instance (list : Text) (labels : Option Labels) : Decidable (Named list labels) :=
  inferInstanceAs (Decidable (∃ token ∈ tokens list, namesEngine labels token = true))

instance (labels : Option Labels) : Decidable (IsObjc labels) := inferInstanceAs (Decidable (_ = _))

/-- `after` holds the engines of `before` for which `keep` is true, in the order of their places on
the list, and the other arrays what belongs to them. -/
def BackendOrder (list : Text) (before : EngineArrays ν κ) (keep : before.Slot → Prop)
    (after : EngineArrays ν κ) : Prop :=
  ∃ order : List before.Slot, (∀ i, i ∈ order ↔ keep i) ∧
    order.Pairwise (Precedes (fun i ↦ place list (before.labels describe i)) (· < ·)) ∧
    after = before.pick order

/-! ## Names -/

theorem ciSpanEq_iff (a b : Text) : ciSpanEq a b = true ↔ SameLetters a b := by
  induction a generalizing b with
  | nil => cases b <;> simp [ciSpanEq, SameLetters]
  | cons x a ih =>
    cases b with
    | nil => simp [ciSpanEq, SameLetters]
    | cons y b => simpa [ciSpanEq, SameLetters] using fun _ ↦ ih b

theorem backendSpanMatches_iff (token id : Text) :
    backendSpanMatches token id = true ↔ Names token id := by
  unfold backendSpanMatches Names
  simp only [← ciSpanEq_iff, ← List.isPrefixOf_iff_prefix]
  split
  · simp [*]
  · split
    · simp_all
    · simp_all

/-! ## The walk -/

/-- How many tokens the walk passes before it stops. -/
def passed (list id : Text) : Nat := (tokens list).findIdx fun token ↦ Names token id

theorem passed_nil {p id : Text} (htokens : tokens p = []) : passed p id = 0 := by
  rw [passed, htokens, List.findIdx_nil]

theorem passed_cons {p p' token id : Text} (htokens : tokens p = token :: tokens p') :
    passed p id = if Names token id then 0 else passed p' id + 1 := by
  simp only [passed, htokens, List.findIdx_cons, decide_eq_true_eq, cond_eq_ite]

theorem tokenIndexFrom_nil {p : Text} (id : Text) (idx : Nat)
    (hstart : p.dropWhile isSeparator = []) :
    tokenIndexFrom id p idx = some (-1) := by
  rw [tokenIndexFrom]
  split
  · rfl
  · simp_all

theorem tokenIndexFrom_cons {p rest : Text} {c : Byte} (id : Text) (idx : Nat)
    (hstart : p.dropWhile isSeparator = c :: rest) :
    tokenIndexFrom id p idx =
      if Names ((c :: rest).takeWhile fun c ↦ !isSeparator c) id then some (idx : Int)
      else if idx = intMax then none
      else tokenIndexFrom id ((c :: rest).dropWhile fun c ↦ !isSeparator c) (idx + 1) := by
  rw [tokenIndexFrom]
  split
  · simp_all
  · rename_i c' rest' hstart'
    cases hstart'.symm.trans hstart
    simp only [backendSpanMatches_iff]

/-- Where the walk stops, and that it is defined if it gets there. -/
theorem tokenIndexFrom_eq (id p : Text) (idx : Nat) (hidx : idx ≤ intMax) :
    tokenIndexFrom id p idx =
      if idx + passed p id ≤ intMax then
        some (if passed p id < (tokens p).length then ((idx + passed p id : Nat) : Int) else -1)
      else none := by
  induction p, idx using tokenIndexFrom.induct id with
  | case1 p idx hstart =>
    have hp : tokens p = [] := words_of_skip_nil hstart
    simp [tokenIndexFrom_nil id idx hstart, passed_nil hp, hp, hidx]
  | case2 p idx c rest hstart token hmatch =>
    have hp : tokens p = _ :: tokens _ := words_of_skip_cons hstart
    have hnames := (backendSpanMatches_iff token id).mp hmatch
    have hzero : passed p id = 0 := by rw [passed_cons hp, if_pos hnames]
    rw [tokenIndexFrom_cons id idx hstart, if_pos hnames, hzero, hp]
    simp [hidx]
  | case3 p c rest hstart token hmatch =>
    have hp : tokens p = _ :: tokens _ := words_of_skip_cons hstart
    have hnames := mt (backendSpanMatches_iff token id).mpr hmatch
    rw [tokenIndexFrom_cons id intMax hstart, if_neg hnames, if_pos rfl,
      passed_cons hp, if_neg hnames,
      if_neg (by omega)]
  | case4 p idx c rest hstart token hmatch hne ih =>
    have hp : tokens p = _ :: tokens _ := words_of_skip_cons hstart
    have hnames := mt (backendSpanMatches_iff token id).mpr hmatch
    rw [tokenIndexFrom_cons id idx hstart, if_neg hnames, if_neg hne, ih (by omega), passed_cons hp,
      if_neg hnames, hp, List.length_cons]
    simp only [Nat.add_lt_add_iff_right, Nat.add_assoc, Nat.add_comm 1]

/-! ## Ranks -/

/-- The walks for an engine's names stay within what an `int` counts. -/
def Counted (list : Text) (labels : Option Labels) : Prop :=
  ∀ l ∈ labels, ∀ id ∈ l.engineId, passed list (engineGroupToken l id) ≤ intMax ∧
    passed list id ≤ intMax

theorem findIdx_or {α : Type} (p q : α → Bool) (xs : List α) :
    xs.findIdx (fun x ↦ p x || q x) = min (xs.findIdx p) (xs.findIdx q) := by
  induction xs with
  | nil => rfl
  | cons x xs ih =>
    simp only [List.findIdx_cons, cond_eq_ite, Bool.or_eq_true, ih]
    by_cases hp : p x = true
    · simp [hp]
    · by_cases hq : q x = true
      · simp [hq]
      · simp only [hp, hq, or_self]
        exact (Nat.add_min_add_right _ _ 1).symm

theorem Labels.all_eq {l : Labels} {id : Text} (hid : l.engineId = some id) (p : Text → Bool) :
    l.all.any p = (p (engineGroupToken l id) || p id) := by
  rcases l with ⟨engineId, _ | _ | ⟨c, group⟩⟩ <;> simp_all
    [Labels.all, engineGroupToken, Option.filter]

theorem place_eq {l : Labels} {id : Text} (list : Text) (hid : l.engineId = some id) :
    place list (some l) = min (passed list (engineGroupToken l id)) (passed list id) := by
  rw [passed, passed, ← findIdx_or]
  exact congrArg (List.findIdx · (tokens list)) (funext fun token ↦ Labels.all_eq hid _)

theorem place_lt_iff (list : Text) (labels : Option Labels) :
    place list labels < (tokens list).length ↔ Named list labels :=
  List.findIdx_lt_length

theorem backendTokenIndex_eq (list id : Text) :
    backendTokenIndex list id =
      if passed list id ≤ intMax then
        some (if passed list id < (tokens list).length then (passed list id : Int) else -1)
      else none := by
  have h := tokenIndexFrom_eq id list 0 (Nat.zero_le _)
  rwa [Nat.zero_add] at h

/-- The choice between two positions, where `n` stands for none. -/
theorem lower_rank (a b n : Nat) :
    (let x : Int := if a < n then a else -1
     let y : Int := if b < n then b else -1
     if x < 0 then some y else if y < 0 then some x else some (if x < y then x else y)) =
      some (if min a b < n then ((min a b : Nat) : Int) else -1) := by
  by_cases ha : a < n <;> by_cases hb : b < n
  · rcases Nat.lt_or_ge a b with h | h
    · simp [ha, hb, h, h.le]
    · simp [ha, hb, h, Nat.not_lt.mpr h]
  · simp [ha, hb, show a ≤ b by omega]
  · simp [ha, hb, show b ≤ a by omega]
  · simp [ha, hb]

/-- The rank of an engine that declares an id is its place on the list. -/
theorem engineTokenRank_eq {list : Text} {labels : Option Labels} (hcounted : Counted list labels) :
    engineTokenRank labels list =
      some (if Declared labels ∧ Named list labels then (place list labels : Int) else -1) := by
  cases labels with
  | none => simp [engineTokenRank, Declared]
  | some l =>
    cases hid : l.engineId with
    | none => simp [engineTokenRank, Declared, hid]
    | some id =>
      obtain ⟨hgroup, hown⟩ := hcounted l rfl id hid
      have hdeclared : Declared (some l) := by simp [Declared, hid]
      simp only [engineTokenRank, hid, backendTokenIndex_eq, if_pos hgroup, if_pos hown, hdeclared,
        true_and, ← place_lt_iff, place_eq list hid]
      exact lower_rank _ _ _

theorem engineTokenRank_overflow {list : Text} {labels : Option Labels}
    (h : ¬ Counted list labels) :
    engineTokenRank labels list = none := by
  simp only [Counted, not_forall] at h
  obtain ⟨l, rfl, id, hid, h⟩ := h
  have hid : l.engineId = some id := hid
  simp only [engineTokenRank, hid, backendTokenIndex_eq]
  by_cases hgroup : passed list (engineGroupToken l id) ≤ intMax
  · rw [if_pos hgroup, if_neg fun hown ↦ h ⟨hgroup, hown⟩]
    rfl
  · rw [if_neg hgroup]
    rfl

/-! ## The selection -/

namespace EngineArrays

variable {describe : ν → Option Labels} {runtime : EngineArrays ν κ} {list : Text}

/-- The engines that stay. -/
def Kept (describe : ν → Option Labels) (runtime : EngineArrays ν κ)
    (list : Text) (i : runtime.Slot) :
    Prop :=
  Declared (runtime.labels describe i) ∧ Named list (runtime.labels describe i) ∨
    IsObjc (runtime.labels describe i)

instance (i : runtime.Slot) : Decidable (runtime.Kept describe list i) :=
  inferInstanceAs (Decidable (_ ∧ _ ∨ _))

/-- The keys the selection sorts by. -/
def keyOf (describe : ν → Option Labels) (runtime : EngineArrays ν κ)
    (list : Text) (i : runtime.Slot) :
    Int :=
  if Declared (runtime.labels describe i) ∧ Named list (runtime.labels describe i) then
    place list (runtime.labels describe i)
  else backendUnranked + i

theorem dropped_eq {i : runtime.Slot} (hcounted : Counted list (runtime.labels describe i)) :
    runtime.dropped describe list i = some (decide (¬ runtime.Kept describe list i)) := by
  unfold dropped
  cases hid : (runtime.labels describe i).bind (·.engineId) with
  | none =>
    have hdrop : ¬ runtime.Kept describe list i := by simp [Kept, Declared, IsObjc, hid]
    simp [hdrop]
  | some id =>
    have hdeclared : Declared (runtime.labels describe i) := by simp [Declared, hid]
    have hkept : runtime.Kept describe list i ↔
        Named list (runtime.labels describe i) ∨ id = ascii "objc" := by
      simp [Kept, hdeclared, IsObjc, hid]
    simp only [hkept, engineTokenRank_eq hcounted, hdeclared, true_and]
    by_cases hobjc : id = ascii "objc"
    · simp [hobjc]
    · by_cases hnamed : Named list (runtime.labels describe i)
      · simp [hobjc, hnamed]
      · simp [hobjc, hnamed]

theorem sortKey_eq {i : runtime.Slot} (hcounted : Counted list (runtime.labels describe i)) :
    runtime.sortKey describe (some list) i = some (runtime.keyOf describe list i) := by
  simp only [sortKey, keyOf, engineTokenRank_eq hcounted, Option.map_some]
  split
  · simp
  · simp

/-- A runtime without engines. -/
theorem pick_of_empty (h : runtime.engines.length = 0) (order : List runtime.Slot) :
    runtime.pick order = runtime := by
  obtain ⟨engines, ctxs, testing, hctxs, htesting⟩ := runtime
  cases List.length_eq_zero_iff.mp h
  cases List.length_eq_zero_iff.mp hctxs
  cases List.length_eq_zero_iff.mp htesting
  cases order with
  | nil => rfl
  | cons i _ => exact i.elim0

/-- What the selection leaves, as long as the walks can be counted. -/
theorem applyBackendOverride_eq (hcounted : ∀ i, Counted list (runtime.labels describe i)) :
    ∃ order : List runtime.Slot, (∀ i, i ∈ order ↔ runtime.Kept describe list i) ∧
      order.Pairwise (Precedes (runtime.keyOf describe list) (· < ·)) ∧
      runtime.applyBackendOverride describe (some list) = some (runtime.pick order) := by
  let kept := (List.finRange _).filter fun i ↦ decide (runtime.Kept describe list i)
  let keyed := kept.map fun i ↦ (i, runtime.keyOf describe list i)
  let sorted := insertionSort Prod.snd keyed
  have hperm : (sorted.map Prod.fst).Perm kept := by
    have h := (insertionSort_perm Prod.snd keyed).map Prod.fst
    rwa [List.map_map, List.map_id''] at h
    exact fun _ ↦ rfl
  have hkeyed : keyed.Pairwise fun a b ↦ a.1 < b.1 :=
    List.pairwise_map.mpr ((List.pairwise_lt_finRange _).filter _)
  have hkeys : ∀ x ∈ sorted, x.2 = runtime.keyOf describe list x.1 := by
    intro x hx
    obtain ⟨i, -, rfl⟩ := List.mem_map.mp ((insertionSort_perm Prod.snd keyed).subset hx)
    rfl
  refine ⟨sorted.map Prod.fst, fun i ↦ ?_, ?_, ?_⟩
  · rw [hperm.mem_iff]
    simp [kept]
  · refine List.pairwise_map.mpr ((insertionSort_pairwise hkeyed).imp_of_mem fun ha hb h ↦ ?_)
    rwa [Precedes, hkeys _ ha, hkeys _ hb] at h
  · have hdrop : (List.finRange _).mapM (fun i : runtime.Slot ↦ runtime.dropped describe list i) =
        some ((List.finRange _).map fun i ↦ decide (¬ runtime.Kept describe list i)) :=
      mapM_eq_some fun i _ ↦ dropped_eq (hcounted i)
    have hkept : ∀ i : runtime.Slot,
        ((List.finRange _).map fun i ↦ decide (¬ runtime.Kept describe list i))[i.val]? =
          some (decide (¬ runtime.Kept describe list i)) := by
      intro i
      simp
    have hkeyed :
        kept.mapM (fun i ↦ (runtime.sortKey describe (some list) i).map fun key ↦ (i, key)) =
        some keyed :=
      mapM_eq_some fun i _ ↦ by rw [sortKey_eq (hcounted i)]; rfl
    have hretain : (do
        let drop ← (List.finRange _).mapM fun i : runtime.Slot ↦ runtime.dropped describe list i
        runtime.retainOrderedEngines describe drop (some list)) =
          some (runtime.pick (sorted.map Prod.fst)) := by
      rw [hdrop]
      simp only [Option.bind_eq_bind, Option.bind_some, retainOrderedEngines,
        hkept, Option.some.injEq,
        decide_eq_false_iff_not, not_not]
      rw [hkeyed]
      rfl
    simp only [applyBackendOverride]
    split
    · rename_i hzero
      rw [pick_of_empty hzero]
    · exact hretain

/-- An engine whose walks cannot be counted is not dropped before they are made. -/
theorem dropped_of_not_counted {i : runtime.Slot} {drop : Bool}
    (h : ¬ Counted list (runtime.labels describe i))
    (hdrop : runtime.dropped describe list i = some drop) : drop = false := by
  unfold dropped at hdrop
  cases hid : (runtime.labels describe i).bind (·.engineId) with
  | none =>
    refine absurd (fun l hl id hid' ↦ ?_) h
    rw [Option.mem_def.mp hl] at hid
    cases hid.symm.trans hid'
  | some id =>
    rw [hid] at hdrop
    dsimp only at hdrop
    split at hdrop
    · cases hdrop
      rfl
    · rw [engineTokenRank_overflow h] at hdrop
      cases hdrop

theorem applyBackendOverride_overflow (h : ¬ ∀ i, Counted list (runtime.labels describe i)) :
    runtime.applyBackendOverride describe (some list) = none := by
  obtain ⟨i, hi⟩ := not_forall.mp h
  have hzero : runtime.engines.length ≠ 0 := i.pos.ne'
  simp only [applyBackendOverride, if_neg hzero]
  by_cases hall : ∀ i, ∃ drop, runtime.dropped describe list i = some drop
  · choose drop hdrop using hall
    have hkept : i ∈ (List.finRange _).filter fun i : runtime.Slot ↦
        ((List.finRange _).map drop)[i.val]? = some false := by
      simp [dropped_of_not_counted hi (hdrop i)]
    have hkey : runtime.sortKey describe (some list) i = none := by
      simp [sortKey, engineTokenRank_overflow hi]
    rw [mapM_eq_some fun i _ ↦ hdrop i]
    simp only [Option.bind_eq_bind, Option.bind_some, retainOrderedEngines]
    rw [mapM_eq_none hkept (by rw [hkey]; rfl)]
    rfl
  · obtain ⟨j, hj⟩ := not_forall.mp hall
    have hnone : runtime.dropped describe list j = none := by
      simpa [Option.eq_none_iff_forall_ne_some] using hj
    rw [mapM_eq_none (List.mem_finRange j) hnone]
    rfl

end EngineArrays

/-! ## The order of the list -/

section Order

variable {describe : ν → Option Labels} {runtime : EngineArrays ν κ} {list : Text}

theorem passed_le (list id : Text) : passed list id ≤ (tokens list).length := List.findIdx_le_length

theorem Counted.of_length (h : (tokens list).length ≤ intMax) (labels : Option Labels) :
    Counted list labels :=
  fun _ _ _ _ ↦ ⟨(passed_le _ _).trans h, (passed_le _ _).trans h⟩

theorem place_le (list : Text) (labels : Option Labels) :
    place list labels ≤ (tokens list).length :=
  List.findIdx_le_length

/-- An engine that stays either has its place as key, or stands nowhere on the list. -/
theorem keyOf_cases {i : runtime.Slot} (hkept : runtime.Kept describe list i) :
    (runtime.keyOf describe list i = place list (runtime.labels describe i) ∧
      place list (runtime.labels describe i) < (tokens list).length) ∨
    (runtime.keyOf describe list i = backendUnranked + i ∧
      place list (runtime.labels describe i) = (tokens list).length) := by
  have hdeclared : Declared (runtime.labels describe i) := by
    rcases hkept with ⟨h, -⟩ | h
    · exact h
    · rw [Declared, h]
      rfl
  by_cases hnamed : Named list (runtime.labels describe i)
  · exact .inl ⟨if_pos ⟨hdeclared, hnamed⟩, (place_lt_iff _ _).mpr hnamed⟩
  · have hlast := mt (place_lt_iff list _).mp hnamed
    exact .inr ⟨if_neg fun h ↦ hnamed h.2, (place_le _ _).antisymm (not_lt.mp hlast)⟩

/-- **A list of backends keeps exactly the engines with an id that it names, and the Objective-C
engines, in the order of their places on the list.** -/
theorem applyBackendOverride_order (describe : ν → Option Labels) (runtime : EngineArrays ν κ)
    (list : Text) (hlist : (tokens list).length ≤ 2 ^ 30) :
    ∃ after, runtime.applyBackendOverride describe (some list) = some after ∧
      BackendOrder describe list runtime (runtime.Kept describe list) after := by
  obtain ⟨order, hmem, hsorted, happly⟩ :=
    runtime.applyBackendOverride_eq fun i ↦
      .of_length (hlist.trans (by decide)) (runtime.labels describe i)
  refine ⟨_, happly, order, hmem, hsorted.imp_of_mem fun {i j} hi hj h ↦ ?_, rfl⟩
  have hcasesI := keyOf_cases ((hmem i).mp hi)
  have hcasesJ := keyOf_cases ((hmem j).mp hj)
  have hindex : i < j ↔ i.val < j.val := Iff.rfl
  simp only [Precedes, backendUnranked, hindex] at h hcasesI hcasesJ ⊢
  omega

/-- A runtime with the Objective-C engine and the rebinding engine. -/
def objcAndFishhook : EngineArrays Labels Nat :=
  ⟨[⟨some (ascii "objc"), none⟩, ⟨some (ascii "fishhook"), some (ascii "HookKit")⟩], [1, 2],
    [false, true], rfl, rfl⟩

theorem applyBackendOverride_order_native :
    ∃ after, objcAndFishhook.applyBackendOverride some (some (ascii " NATIVE,objc")) = some after ∧
      BackendOrder some (ascii " NATIVE,objc") objcAndFishhook
        (objcAndFishhook.Kept some (ascii " NATIVE,objc")) after :=
  applyBackendOverride_order some objcAndFishhook (ascii " NATIVE,objc") (by decide)

/-- An engine that is sorted behind an Objective-C engine the list does not name is out of order. -/
theorem not_backendOrder {i j : runtime.Slot} {keep : runtime.Slot → Prop}
    (hcounted : ∀ i, Counted list (runtime.labels describe i))
    (hi : IsObjc (runtime.labels describe i)) (hunnamed : ¬ Named list (runtime.labels describe i))
    (hj : Declared (runtime.labels describe j) ∧ Named list (runtime.labels describe j))
    (hkey : Precedes (runtime.keyOf describe list) (· < ·) i j) :
    ¬ ∃ after, runtime.applyBackendOverride describe (some list) = some after ∧
      BackendOrder describe list runtime keep after := by
  rintro ⟨after, happly, order', -, hsorted', hafter⟩
  obtain ⟨order, hmem, hsorted, horder⟩ := runtime.applyBackendOverride_eq hcounted
  cases horder.symm.trans happly
  have hengines : order.map runtime.engine = order'.map runtime.engine :=
    congrArg EngineArrays.engines hafter
  -- What the list asks for is a property of the array of engines.
  have hplaces : order.Pairwise fun a b ↦
      place list (runtime.labels describe a) ≤ place list (runtime.labels describe b) := by
    have h : (order'.map runtime.engine).Pairwise fun e f ↦
        place list (describe e) ≤ place list (describe f) :=
      List.pairwise_map.mpr (hsorted'.imp Precedes.le)
    rw [← hengines] at h
    exact (List.pairwise_map (f := runtime.engine)).mp h
  obtain ⟨m, hm, hmi⟩ := List.mem_iff_getElem.mp ((hmem i).mpr (.inr hi))
  obtain ⟨n, hn, hnj⟩ := List.mem_iff_getElem.mp ((hmem j).mpr (.inl hj))
  have hfar : place list (runtime.labels describe j) < place list (runtime.labels describe i) :=
    ((place_lt_iff _ _).mpr hj.2).trans_le (not_lt.mp (mt (place_lt_iff _ _).mp hunnamed))
  rcases lt_trichotomy m n with hmn | rfl | hnm
  · have h := List.pairwise_iff_getElem.mp hplaces m n hm hn hmn
    rw [hmi, hnj] at h
    exact hfar.not_ge h
  · cases hmi.symm.trans hnj
    exact hunnamed hj.2
  · have h := List.pairwise_iff_getElem.mp hsorted n m hn hm hnm
    rw [hmi, hnj] at h
    rcases h with h | ⟨h, hji⟩
    · exact h.not_ge hkey.le
    · rcases hkey with hkey | ⟨-, hij⟩
      · exact hkey.ne' h
      · exact hij.not_gt hji

/-- `x,` written `n` times. -/
def repeated (n : Nat) : Text := (List.replicate n (ascii "x,")).flatten

theorem tokens_repeated (n : Nat) (rest : Text) :
    tokens (repeated n ++ rest) = List.replicate n (ascii "x") ++ tokens rest := by
  induction n with
  | zero => rfl
  | succ n ih =>
    have hsplit : repeated (n + 1) ++ rest = ascii "x" ++ (0x2c#8 :: (repeated n ++ rest)) := by
      simp only [repeated, List.replicate_succ, List.flatten_cons, List.append_assoc]
      rfl
    have hword : tokens (ascii "x" ++ (0x2c#8 :: (repeated n ++ rest))) =
        ascii "x" :: words isSeparator (0x2c#8 :: (repeated n ++ rest)) :=
      words_append (by decide) (by decide) (by simp [isSeparator])
    rw [hsplit, hword, words_separator (by decide)]
    exact congrArg (ascii "x" :: ·) ih

/-- An engine of a group that has no id. -/
def withoutId : EngineArrays Labels Nat :=
    ⟨[⟨none, some (ascii "HookKit")⟩], [1], [false], rfl, rfl⟩

/-- The engines the list names, with an id or not, and the Objective-C engines. -/
def EngineArrays.Asked (describe : ν → Option Labels) (runtime : EngineArrays ν κ) (list : Text)
    (i : runtime.Slot) : Prop :=
  Named list (runtime.labels describe i) ∨ IsObjc (runtime.labels describe i)

theorem without_id_not_kept {after : EngineArrays Labels Nat}
    (happly : withoutId.applyBackendOverride some (some (ascii "HookKit")) = some after) :
    ¬ BackendOrder some (ascii "HookKit") withoutId
    (withoutId.Asked some (ascii "HookKit")) after := by
  rintro ⟨order', hmem', -, hafter⟩
  have hcounted : ∀ i, Counted (ascii "HookKit") (withoutId.labels some i) :=
    fun _ ↦ .of_length (by decide) _
  obtain ⟨order, hmem, -, horder⟩ := withoutId.applyBackendOverride_eq hcounted
  cases horder.symm.trans happly
  have hlength : order.length = order'.length := by
    simpa [EngineArrays.pick] using congrArg (·.engines.length) hafter
  have hasked : ⟨0, by decide⟩ ∈ order' := (hmem' _).mpr (.inl (by decide))
  cases order with
  | nil => rw [List.length_eq_zero_iff.mp hlength.symm] at hasked; cases hasked
  | cons i rest =>
    have hkept := (hmem i).mp List.mem_cons_self
    have hnone : ∀ i, ¬ withoutId.Kept some (ascii "HookKit") i := by decide
    exact hnone i hkept

theorem tokens_repeated_fishhook (n : Nat) :
    tokens (repeated n ++ ascii "fishhook") = List.replicate n (ascii "x") ++ [ascii "fishhook"] :=
  tokens_repeated n (ascii "fishhook")

/-- The engine is sorted behind the Objective-C engine once its place reaches
`HK_BACKEND_UNRANKED`. -/
theorem fishhook_behind_objc {n : Nat} (hn : backendUnranked = n)
    {keep : objcAndFishhook.Slot → Prop} :
    ¬ ∃ after, objcAndFishhook.applyBackendOverride some (some (repeated n ++ ascii "fishhook")) =
        some after ∧
      BackendOrder some (repeated n ++ ascii "fishhook") objcAndFishhook keep after := by
  have htokens := tokens_repeated_fishhook n
  have hfish : namesEngine (objcAndFishhook.labels some ⟨1, by decide⟩)
      (ascii "fishhook") = true := by
    decide
  have hother : namesEngine (objcAndFishhook.labels some ⟨1, by decide⟩) (ascii "x") = false := by
    decide
  have hplace : place (repeated n ++ ascii "fishhook")
      (objcAndFishhook.labels some ⟨1, by decide⟩) =
      n := by
    have hnone : (List.replicate n (ascii "x")).findIdx
        (namesEngine (objcAndFishhook.labels some ⟨1, by decide⟩)) = n := by
      have h := List.findIdx_eq_length.mpr fun token (h : token ∈ List.replicate n (ascii "x")) ↦
        (List.eq_of_mem_replicate h) ▸ hother
      rwa [List.length_replicate] at h
    rw [place, htokens, List.findIdx_append, hnone, List.length_replicate, if_neg (lt_irrefl n),
      List.findIdx_cons, hfish]
    exact Nat.zero_add n
  have hnamed : Named (repeated n ++ ascii "fishhook")
      (objcAndFishhook.labels some ⟨1, by decide⟩) :=
    ⟨ascii "fishhook", by rw [htokens]; simp, hfish⟩
  have hunnamed : ¬ Named (repeated n ++ ascii "fishhook")
      (objcAndFishhook.labels some ⟨0, by decide⟩) := by
    rintro ⟨token, htoken, hnames⟩
    rw [htokens] at htoken
    rcases List.mem_append.mp htoken with h | h
    · rw [List.eq_of_mem_replicate h] at hnames
      exact absurd hnames (by decide)
    · rw [List.mem_singleton.mp h] at hnames
      exact absurd hnames (by decide)
  have hdeclared : Declared (objcAndFishhook.labels some ⟨1, by decide⟩) := by decide
  have hlength : (tokens (repeated n ++ ascii "fishhook")).length ≤ intMax := by
    rw [htokens, List.length_append, List.length_replicate, List.length_singleton]
    simp only [backendUnranked, intMax] at hn ⊢
    omega
  refine not_backendOrder (fun _ ↦ .of_length hlength _) (by decide) hunnamed ⟨hdeclared, hnamed⟩ ?_
  refine .inr ⟨?_, by decide⟩
  rw [EngineArrays.keyOf, if_neg fun h ↦ hunnamed h.2, EngineArrays.keyOf,
    if_pos ⟨hdeclared, hnamed⟩,
    hplace, hn]
  exact Int.add_zero _

/-- An engine without an id stays out although the list names its group; and an engine that a list
names after `2 ^ 30` other tokens comes behind the Objective-C engine, which the list does not
name. -/
theorem not_all_named_kept_in_order :
    (¬ ∃ after, withoutId.applyBackendOverride some (some (ascii "HookKit")) = some after ∧
      BackendOrder some (ascii "HookKit") withoutId
        (withoutId.Asked some (ascii "HookKit")) after) ∧
    (¬ ∃ after, objcAndFishhook.applyBackendOverride some
        (some (repeated (2 ^ 30) ++ ascii "fishhook")) = some after ∧
      BackendOrder some (repeated (2 ^ 30) ++ ascii "fishhook") objcAndFishhook
        (objcAndFishhook.Asked some (repeated (2 ^ 30) ++ ascii "fishhook")) after) :=
  ⟨fun ⟨_, happly, h⟩ ↦ without_id_not_kept happly h, fishhook_behind_objc rfl⟩

end Order

end HookKit.Backends
