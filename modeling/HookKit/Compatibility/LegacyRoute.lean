import HookKit.Core.BackendPolicy
import HookKit.Core.Targets

/-!
# Which requests the legacy facade reroutes

`hk_legacy_backend_ids_are_only` and `hk_legacy_route_function_spec` of `HKLegacyFacade.c`: under a
list of backends that is only the rebinding engine, a request for a function address becomes one for
the symbol at that address.

* `backendIdsAreOnly`, `routeFunctionSpec` — the facade.
* `onlyFrom_eq` — what its reading of a list amounts to.
* `onlyFishhook_iff` — which lists leave a runtime with the rebinding engine alone.
* `readAlike_iff` — when the two readings lead to the same route.  They do not for `Fishhook`, for
  `fishhook,fishhook`, for `fishhook,other`, nor where a line break touches the name.
-/

set_option autoImplicit false

namespace HookKit.Legacy

open Backends Tokens StableSort

/-! ## The facade -/

/-- The status codes of the legacy facade. -/
inductive LegacyStatus where
  | ok | err | notSupported | invalidArgument | errPartial
deriving DecidableEq, Repr

/-- What stands between the tokens of a list for the facade. -/
def isBlank (c : Byte) : Bool := c = 0x2c#8 ∨ c = 0x20#8 ∨ c = 0x09#8 ∨ c = 0x0a#8 ∨ c = 0x0d#8

/-- The loop of `hk_legacy_backend_ids_are_only` at `cursor`. -/
def onlyFrom (wanted cursor : Text) (found : Bool) : Bool :=
  match hstart : cursor.dropWhile isBlank with
  | [] => found
  | c :: rest =>
    let token := (c :: rest).takeWhile fun c ↦ !isBlank c
    if found ∨ wanted.length ≠ token.length ∨ token ≠ wanted then false
    else onlyFrom wanted ((c :: rest).dropWhile fun c ↦ !isBlank c) true
termination_by cursor.length
decreasing_by exact skip_shorter hstart

/-- `hk_legacy_backend_ids_are_only`. -/
def backendIdsAreOnly (backendIds : Option Text) (wanted : Text) : Bool :=
  match backendIds with
  | none => false
  | some list => if wanted = [] then false else onlyFrom wanted list false

/-- `hk_legacy_route_function_spec`.  `dladdr` is the name the loader has for an address, if any. -/
def routeFunctionSpec (dladdr : Ptr → Option String) (spec : HookSpec) (backendIds : Option Text) :
    LegacyStatus × HookSpec :=
  match spec.target with
  | .address target =>
    if !backendIdsAreOnly backendIds (ascii "fishhook") then (.ok, spec)
    else
      match dladdr target.address with
      | none => (.notSupported, spec)
      | some name =>
        if name = "" then (.notSupported, spec)
        else (.ok, { spec with
          target := .symbol ⟨some name, 0, 1, .zero, .zero, 0, false⟩
          requiredReach := 1, preferredReach := 1
          originalRequirement :=
            if spec.originalRequirement = .callableContinuation then .directPredecessor
            else spec.originalRequirement })
  | _ => (.ok, spec)

/-! ## The facade's reading of a list -/

theorem onlyFrom_nil {wanted cursor : Text} (found : Bool)
    (hstart : cursor.dropWhile isBlank = []) :
    onlyFrom wanted cursor found = found := by
  rw [onlyFrom]
  split
  · rfl
  · simp_all

theorem onlyFrom_cons {wanted cursor rest : Text} {c : Byte} (found : Bool)
    (hstart : cursor.dropWhile isBlank = c :: rest) :
    onlyFrom wanted cursor found =
      if found = true ∨ (c :: rest).takeWhile (fun c ↦ !isBlank c) ≠ wanted then false
      else onlyFrom wanted ((c :: rest).dropWhile fun c ↦ !isBlank c) true := by
  rw [onlyFrom]
  split
  · simp_all
  · rename_i c' rest' hstart'
    cases hstart'.symm.trans hstart
    refine if_congr ?_ rfl rfl
    refine or_congr_right ⟨fun h ↦ h.elim (fun h heq ↦ h (heq ▸ rfl)) id, .inr⟩

/-- The facade looks for a list of exactly one token. -/
theorem onlyFrom_eq (wanted cursor : Text) (found : Bool) :
    onlyFrom wanted cursor found = true ↔
      words isBlank cursor = if found = true then [] else [wanted] := by
  induction cursor, found using onlyFrom.induct wanted with
  | case1 cursor found hstart =>
    rw [onlyFrom_nil found hstart, words_of_skip_nil hstart]
    cases found <;> simp
  | case2 cursor found c rest hstart token hstop =>
    rw [onlyFrom_cons found hstart, words_of_skip_cons hstart]
    have hstop' : found = true ∨ token ≠ wanted :=
      hstop.imp_right fun h ↦ h.elim (fun h heq ↦ h (heq ▸ rfl)) id
    rw [if_pos hstop']
    cases found with
    | true => simp
    | false =>
      have hne : token ≠ wanted := hstop'.resolve_left Bool.false_ne_true
      exact iff_of_false Bool.false_ne_true fun h ↦ hne (List.cons.inj h).1
  | case3 cursor found c rest hstart token hgo ih =>
    obtain ⟨hfound, htoken⟩ := not_or.mp hgo
    have hfalse : found = false := by simpa using hfound
    have heq : token = wanted := not_not.mp (not_or.mp htoken).2
    have hgo' : ¬ (found = true ∨ (c :: rest).takeWhile (fun c ↦ !isBlank c) ≠ wanted) :=
      not_or.mpr ⟨hfound, not_not.mpr heq⟩
    rw [onlyFrom_cons found hstart, if_neg hgo', ih, words_of_skip_cons hstart, hfalse]
    have hcons : (c :: rest).takeWhile (fun c ↦ !isBlank c) = wanted := heq
    simp [hcons]

/-- The tokens of a list as the facade reads it. -/
def legacyTokens (list : Text) : List Text := words isBlank list

theorem backendIdsAreOnly_iff {list wanted : Text} (hwanted : wanted ≠ []) :
    backendIdsAreOnly (some list) wanted = true ↔ legacyTokens list = [wanted] := by
  rw [backendIdsAreOnly]
  simp only [if_neg hwanted]
  exact onlyFrom_eq wanted list false

/-- The facade turns the request for an address into one for an imported symbol. -/
def RewritesToImport (dladdr : Ptr → Option String) (spec : HookSpec) (list : Text) : Prop :=
  ∃ out, routeFunctionSpec dladdr spec (some list) = (.ok, out) ∧ out.targetKind = .functionSymbol

theorem rewritesToImport_iff {dladdr : Ptr → Option String} {spec : HookSpec} {list : Text}
    {target : AddressTarget} {name : String} (htarget : spec.target = .address target)
    (hname : dladdr target.address = some name) (hne : name ≠ "") :
    RewritesToImport dladdr spec list ↔ legacyTokens list = [ascii "fishhook"] := by
  rw [← backendIdsAreOnly_iff (by decide), RewritesToImport, routeFunctionSpec, htarget]
  dsimp only
  cases hlist : backendIdsAreOnly (some list) (ascii "fishhook") with
  | true =>
    rw [hname]
    dsimp only
    rw [if_neg hne]
    exact iff_of_true ⟨_, rfl, rfl⟩ rfl
  | false =>
    refine iff_of_false ?_ Bool.false_ne_true
    rintro ⟨out, hout, hkind⟩
    cases hout
    rw [HookSpec.targetKind, htarget] at hkind
    cases hkind

/-! ## The selection -/

section Selection

variable {ν κ : Type} {describe : ν → Option Labels} {runtime : EngineArrays ν κ} {list : Text}

/-- What the rebinding engine says of itself. -/
def fishhookLabels : Labels := ⟨some (ascii "fishhook"), some (ascii "HookKit")⟩

/-- An engine other than the rebinding engine and the one for Objective-C messages. -/
def OtherEngine (labels : Option Labels) : Prop :=
  Declared labels ∧ labels ≠ some fishhookLabels ∧ ¬ IsObjc labels

instance (labels : Option Labels) : Decidable (OtherEngine labels) :=
  inferInstanceAs (Decidable (_ ∧ _ ∧ _))

/-- Of the engines of a runtime only the rebinding engine is left, besides that for Objective-C. -/
def OnlyFishhook (describe : ν → Option Labels) (runtime : EngineArrays ν κ) : Prop :=
  (∃ e ∈ runtime.engines, describe e = some fishhookLabels) ∧
    ∀ e ∈ runtime.engines, describe e = some fishhookLabels ∨ IsObjc (describe e)

/-- The runtime has the rebinding engine, and others of its group. -/
structure HasGroup (describe : ν → Option Labels) (runtime : EngineArrays ν κ) : Prop where
  fishhook : ∃ i, runtime.labels describe i = some fishhookLabels
  other : ∃ i, OtherEngine (runtime.labels describe i) ∧
    ∃ id, runtime.labels describe i = some ⟨id, some (ascii "HookKit")⟩

/-- Some token of the list spells the name of the rebinding engine, in whatever case. -/
def SpellsFishhook (list : Text) : Prop := ∃ token ∈ tokens list,
    SameLetters token (ascii "fishhook")

/-- Some token of the list names an engine that is neither the rebinding engine nor for
Objective-C. -/
def NamesOther (describe : ν → Option Labels) (runtime : EngineArrays ν κ) (list : Text) : Prop :=
  ∃ i, OtherEngine (runtime.labels describe i) ∧ Named list (runtime.labels describe i)

theorem namesEngine_fishhook (token : Text) :
    namesEngine (some fishhookLabels) token = true ↔
      Names token (ascii "HookKit") ∨ SameLetters token (ascii "fishhook") := by
  have hown : Names token (ascii "fishhook") ↔ SameLetters token (ascii "fishhook") := by
    have halias : ¬ SameLetters (ascii "fishhook") (ascii "HookKit") := by decide
    have hprovider : ¬ ascii "provider-" <+: ascii "fishhook" := by decide
    simp [Names, halias, hprovider]
  rw [← hown]
  simp [namesEngine, Labels.all, fishhookLabels, Option.filter, show ascii "HookKit" ≠ [] by decide]

/-- A token that names the group names every engine in it. -/
theorem namesEngine_group {token : Text} (id : Option Text) (h : Names token (ascii "HookKit")) :
    namesEngine (some ⟨id, some (ascii "HookKit")⟩) token = true := by
  simp [namesEngine, Labels.all, Option.filter, show ascii "HookKit" ≠ [] by decide, h]

theorem onlyFishhook_pick (order : List runtime.Slot) :
    OnlyFishhook describe (runtime.pick order) ↔
      (∃ i ∈ order, runtime.labels describe i = some fishhookLabels) ∧
        ∀ i ∈ order, runtime.labels describe i = some fishhookLabels ∨
          IsObjc (runtime.labels describe i) := by
  simp [OnlyFishhook, EngineArrays.pick, EngineArrays.labels]

instance (runtime : EngineArrays ν κ) : Decidable (NamesOther describe runtime list) :=
  inferInstanceAs (Decidable (∃ i : Fin runtime.engines.length,
    OtherEngine (runtime.labels describe i) ∧ Named list (runtime.labels describe i)))

/-- Which lists leave the rebinding engine alone. -/
theorem onlyFishhook_iff (hgroup : HasGroup describe runtime)
    (hcounted : ∀ i, Counted list (runtime.labels describe i)) :
    ∃ after, runtime.applyBackendOverride describe (some list) = some after ∧
      (OnlyFishhook describe after ↔ SpellsFishhook list ∧ ¬ NamesOther describe runtime list) := by
  obtain ⟨order, hmem, -, happly⟩ := runtime.applyBackendOverride_eq hcounted
  refine ⟨_, happly, ?_⟩
  rw [onlyFishhook_pick]
  constructor
  · rintro ⟨⟨i, hi, hfish⟩, honly⟩
    have hother : ¬ NamesOther describe runtime list := by
      rintro ⟨k, ⟨hdeclared, hnotFish, hnotObjc⟩, hnamed⟩
      rcases honly k ((hmem k).mpr (.inl ⟨hdeclared, hnamed⟩)) with h | h
      · exact hnotFish h
      · exact hnotObjc h
    refine ⟨?_, hother⟩
    have hkept := (hmem i).mp hi
    rw [EngineArrays.Kept, hfish] at hkept
    obtain ⟨token, htoken, hnames⟩ := (hkept.resolve_right (by decide)).2
    rcases (namesEngine_fishhook token).mp hnames with hname | hname
    · obtain ⟨k, hk, id, hlabels⟩ := hgroup.other
      exact absurd ⟨k, hk, token, htoken, hlabels ▸ namesEngine_group id hname⟩ hother
    · exact ⟨token, htoken, hname⟩
  · rintro ⟨⟨token, htoken, hname⟩, hother⟩
    obtain ⟨i, hfish⟩ := hgroup.fishhook
    refine ⟨⟨i, (hmem i).mpr (.inl ?_), hfish⟩, fun k hk ↦ ?_⟩
    · rw [hfish]
      exact ⟨by decide, token, htoken, (namesEngine_fishhook token).mpr (.inr hname)⟩
    · rcases (hmem k).mp hk with ⟨hdeclared, hnamed⟩ | h
      · by_contra hnot
        obtain ⟨hnotFish, hnotObjc⟩ := not_or.mp hnot
        exact hother ⟨k, ⟨hdeclared, hnotFish, hnotObjc⟩, hnamed⟩
      · exact .inr h

/-- The facade rewrites the request exactly if the selection leaves the rebinding engine alone. -/
def RoutedAlike (dladdr : Ptr → Option String) (spec : HookSpec) (describe : ν → Option Labels)
    (runtime : EngineArrays ν κ) (list : Text) : Prop :=
  ∃ after, runtime.applyBackendOverride describe (some list) = some after ∧
    (RewritesToImport dladdr spec list ↔ OnlyFishhook describe after)

/-- The walks over the list can be counted, and either the list is the one token `fishhook`, no line
break touches it and no token names another engine; or it is not that one token, and the name of the
rebinding engine does not occur in it in any case, or a token names another engine. -/
def PlainList (describe : ν → Option Labels) (runtime : EngineArrays ν κ) (list : Text) : Prop :=
  (∀ i, Counted list (runtime.labels describe i)) ∧
    if legacyTokens list = [ascii "fishhook"] then
      SpellsFishhook list ∧ ¬ NamesOther describe runtime list
    else ¬ SpellsFishhook list ∨ NamesOther describe runtime list

/-- **Facade and selection agree exactly on plain lists.** -/
theorem routedAlike_iff {dladdr : Ptr → Option String} {spec : HookSpec} {target : AddressTarget}
    {name : String} (hgroup : HasGroup describe runtime) (htarget : spec.target = .address target)
    (hname : dladdr target.address = some name) (hne : name ≠ "") (list : Text) :
    RoutedAlike dladdr spec describe runtime list ↔ PlainList describe runtime list := by
  have hrewrites : RewritesToImport dladdr spec list ↔ legacyTokens list = [ascii "fishhook"] :=
    rewritesToImport_iff htarget hname hne
  constructor
  · rintro ⟨after, happly, hiff⟩
    have hcounted : ∀ i, Counted list (runtime.labels describe i) := by
      by_contra h
      rw [EngineArrays.applyBackendOverride_overflow h] at happly
      cases happly
    obtain ⟨after', happly', honly⟩ := onlyFishhook_iff hgroup hcounted
    cases happly.symm.trans happly'
    refine ⟨hcounted, ?_⟩
    split
    · rename_i hlist
      exact honly.mp (hiff.mp (hrewrites.mpr hlist))
    · rename_i hlist
      have hnot := mt honly.mpr (mt hiff.mpr (mt hrewrites.mp hlist))
      exact not_and_or.mp hnot |>.imp_right not_not.mp
  · rintro ⟨hcounted, hlist⟩
    obtain ⟨after, happly, honly⟩ := onlyFishhook_iff hgroup hcounted
    refine ⟨after, happly, ?_⟩
    rw [hrewrites, honly]
    split at hlist
    · exact iff_of_true ‹_› hlist
    · exact iff_of_false ‹_› fun ⟨hspells, hother⟩ ↦ hlist.elim (· hspells) hother

/-- The engines for Objective-C, for memory and for imports, as a device registers them. -/
def builtins : EngineArrays Labels Nat :=
  ⟨[fishhookLabels, ⟨some (ascii "memory"), some (ascii "HookKit")⟩,
    ⟨some (ascii "objc"), some (ascii "HookKit")⟩], [1, 2, 3], [false, false, false], rfl, rfl⟩

/-- A request for the function at an address. -/
def openRequest : HookSpec where
  structSize := sizeofHookSpec
  stableHookId := some "legacy-function-1"
  target := .address ⟨0x1000, .zero, none, ⟨none, 0⟩, false⟩
  replacement := 0x2000
  requiredReach := 4
  preferredReach := 4
  originalRequirement := .callableContinuation
  continuationPolicy := .any
  constraints := 0
  availability := .requiredNow
  role := .mandatory
  domain := none
  commitOrder := 0
  commitAfter := none

theorem builtins_hasGroup : HasGroup some builtins where
  fishhook := ⟨⟨0, by decide⟩, rfl⟩
  other := ⟨⟨1, by decide⟩, ⟨by decide, by decide, by decide⟩, _, rfl⟩

theorem routedAlike_iff_fishhook :
    RoutedAlike (fun _ ↦ some "open") openRequest some builtins (ascii "fishhook") ↔
      PlainList some builtins (ascii "fishhook") :=
  routedAlike_iff builtins_hasGroup rfl rfl (by decide) (ascii "fishhook")

/-- The list `Fishhook` leaves the rebinding engine alone, but the facade does not rewrite requests
under it. -/
theorem capitalised_not_routedAlike :
    ¬ RoutedAlike (fun _ ↦ some "open") openRequest some builtins (ascii "Fishhook") := by
  rintro ⟨after, happly, hiff⟩
  have hcounted : ∀ i, Counted (ascii "Fishhook") (builtins.labels some i) :=
    fun _ ↦ .of_length (by decide) _
  obtain ⟨after', happly', honly⟩ := onlyFishhook_iff builtins_hasGroup hcounted
  cases happly.symm.trans happly'
  have hspells : SpellsFishhook (ascii "Fishhook") := ⟨ascii "Fishhook", by decide, by decide⟩
  have hother : ¬ NamesOther some builtins (ascii "Fishhook") := by decide
  have hrewrites := (rewritesToImport_iff rfl rfl (by decide)).mp
    (hiff.mpr (honly.mpr ⟨hspells, hother⟩))
  exact absurd hrewrites (by decide)

end Selection

end HookKit.Legacy
