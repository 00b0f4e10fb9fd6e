import Mathlib.Data.List.MinMax
import Mathlib.Data.Prod.Lex
import HookKit.Plan.System
import HookKit.Plan.SystemSteps

/-!
# Which engine the router chooses

Analysis asks the registered engines one after the other, and each of them may change the
surroundings before the next is asked.  What an engine has to satisfy to serve a request is said
here without the loop, and the route that the loop keeps is the best of those engines.

* `asked` — every registered engine with the surroundings in which it is asked.
* `Eligible` — an engine that may serve a request, with the reach and the rank it serves it with.
* `Standing` — what engines are compared by: preferred reach, rank, and the earlier registration.
* `analyzeOne_routes` — the outcome of analysis is the best eligible engine, if there is one.
-/

set_option autoImplicit false

namespace HookKit

variable {ε : Type}

/-! ## Eligible engines -/

/-- What an eligible engine serves a request with. -/
structure Offer where
  reach : Mask
  routeRank : Nat

/-- The answer of `discover`; an engine without the callback is available. -/
def Engine.discovered (engine : Engine ε) (env : Env ε) : Bool × Env ε :=
  match engine.discover with
  | none => (true, env)
  | some discover => discover env

/-- What an analysis leaves of the reach an engine claims; no reach at all is no answer. -/
def EngineAnalysis.narrows (analysis : EngineAnalysis) (reach : Mask) : Mask :=
  if analysis.achievedReach ≠ 0 then reach &&& analysis.achievedReach else reach

/-- What an engine answers when it is asked about a request. -/
inductive Answers (engine : Engine ε) (spec : HookSpec) (reach : Mask) (env : Env ε) :
    Offer → Prop
  /-- Without the callback, the descriptor is the answer. -/
  | silent (h : engine.analyzeOperation = none) : Answers engine spec reach env ⟨reach, 0⟩
  /-- The analysis may not need effects that the descriptor does not declare. -/
  | analyzed {analyze : HookSpec → Env ε → Option EngineAnalysis × Env ε}
      {analysis : EngineAnalysis} (h : engine.analyzeOperation = some analyze)
      (hanswer : (analyze spec env).1 = some analysis)
      (hprepare : analysis.requiredPrepareEffects &&& ~~~engine.describe.prepareEffects = 0)
      (hcommit : analysis.requiredCommitEffects &&& ~~~engine.describe.commitEffects = 0) :
      Answers engine spec reach env ⟨analysis.narrows reach, analysis.routeRank⟩

/-- A mask forbids no effect that is declared. -/
def Tolerates (constraints effects : Mask) : Prop :=
  ∀ bit forbid, bit < 64 → effects.getLsbD bit = true → effectForbidBit bit = some forbid →
    constraints.getLsbD forbid = false

/-- A registered engine that may serve a request, as it is asked in `env`. -/
structure Eligible (engines : EngineRef → Engine ε) (runtime : Runtime) (runtimeId : RuntimeId)
    (hook : Hook) (registration : Registration) (env : Env ε) (offer : Offer) : Prop where
  available : ((engines registration.engine).discovered env).1 = true
  answers : Answers (engines registration.engine) hook.spec
    (effectiveReach (env.imageCount runtimeId) hook (engines registration.engine).describe)
    ((engines registration.engine).discovered env).2 offer
  kind : (engines registration.engine).describe.targetKinds &&&
    maskBit hook.spec.targetKind.code ≠ 0
  original : (engines registration.engine).describe.originalRequirements ≠ 0 →
    (engines registration.engine).describe.originalRequirements &&&
      maskBit hook.spec.originalRequirement.code ≠ 0
  prepares : Tolerates (effectiveConstraints hook.spec.constraints hook.spec.continuationPolicy)
    (engines registration.engine).describe.prepareEffects
  commits : Tolerates (effectiveConstraints hook.spec.constraints hook.spec.continuationPolicy)
    (engines registration.engine).describe.commitEffects
  reaches : hook.spec.requiredReach &&& ~~~offer.reach = 0
  definingScope : honorsSymbolDefiningScope hook (engines registration.engine).describe = true
  context : (engines registration.engine).describe.installContexts ≠ 0 →
    (engines registration.engine).describe.installContexts &&&
      maskBit runtime.installContext.code ≠ 0
  platform : supportsPlatform (engines registration.engine).describe runtime.platformArchitecture
    runtime.platformIosVersion registration.testing = true

/-- What engines are compared by, the larger one wins: the preferred reach an offer covers, its
rank, and the position of the registration, of which the smaller wins. -/
abbrev Standing := ℕ ×ₗ ℕ ×ₗ ℕᵒᵈ

/-- The standing of the engine registered at position `i`. -/
def Offer.standing (offer : Offer) (spec : HookSpec) (i : Nat) : Standing :=
  toLex (bitCount (offer.reach &&& spec.preferredReach), toLex (offer.routeRank, .toDual i))

section

variable (engines : EngineRef → Engine ε) (runtime : Runtime) (runtimeId : RuntimeId)
  (hook : Hook)

/-- The registered engines, each with the surroundings in which it is asked. -/
def asked : List Registration → Env ε → List (Registration × Env ε)
  | [], _ => []
  | registration :: rest, env =>
    (registration, env) ::
      asked rest (analyzeCandidate engines runtime runtimeId hook registration env).2

end

/-! ## One candidate -/

theorem forbidden_eq_false {effects constraints : Mask} :
    forbidden effects constraints = false ↔ Tolerates constraints effects := by
  simp only [forbidden, List.any_eq_false, List.mem_range, Bool.and_eq_true, not_and,
    Bool.not_eq_true]
  constructor
  · intro h bit forbid hbit heffect hforbid
    have := h bit hbit heffect
    rwa [hforbid] at this
  · intro h bit hbit heffect
    cases hforbid : effectForbidBit bit with
    | none => rfl
    | some forbid => exact h bit forbid hbit heffect hforbid

theorem eligibleMinimalFull_iff {caps : Capabilities} {kind : TargetKind} {reach : Mask}
    {requirement : OriginalRequirement} {constraints : Mask} :
    eligibleMinimalFull caps kind reach requirement constraints = true ↔
      caps.targetKinds &&& maskBit kind.code ≠ 0 ∧ reach &&& ~~~caps.achievableReach = 0 ∧
      (caps.originalRequirements ≠ 0 →
        caps.originalRequirements &&& maskBit requirement.code ≠ 0) ∧
      Tolerates constraints caps.prepareEffects ∧ Tolerates constraints caps.commitEffects := by
  rw [eligibleMinimalFull, ← forbidden_eq_false, ← forbidden_eq_false]
  split_ifs <;> simp_all

theorem supportsInstallContext_iff {caps : Capabilities} {context : InstallContext} :
    supportsInstallContext caps context = true ↔
      (caps.installContexts ≠ 0 → caps.installContexts &&& maskBit context.code ≠ 0) := by
  rw [supportsInstallContext, Bool.or_eq_true, decide_eq_true_eq, decide_eq_true_eq]
  exact Decidable.or_iff_not_imp_left

theorem and_subset (a b : Mask) : (a &&& b) &&& ~~~a = 0 := by
  rw [BitVec.and_assoc, BitVec.and_comm b, ← BitVec.and_assoc, BitVec.and_not_self]
  exact BitVec.zero_and

/-- The reach that analysis works with is part of what the descriptor claims. -/
theorem effectiveReach_subset (imageCount : Nat) (hook : Hook) (caps : Capabilities) :
    effectiveReach imageCount hook caps &&& ~~~caps.achievableReach = 0 := by
  rw [effectiveReach]
  dsimp only
  split_ifs
  · exact BitVec.and_not_self _
  · exact BitVec.and_not_self _
  · exact and_subset _ _

theorem EngineAnalysis.narrows_subset (analysis : EngineAnalysis) (reach : Mask) :
    analysis.narrows reach &&& ~~~reach = 0 := by
  rw [narrows]
  split_ifs
  · exact and_subset _ _
  · exact BitVec.and_not_self _

theorem subset_trans {a b c : Mask} (hab : a &&& ~~~b = 0) (hbc : b &&& ~~~c = 0) :
    a &&& ~~~c = 0 := by
  rw [BitVec.eq_of_getLsbD_eq_iff] at *
  intro i hi
  have ha := hab i hi
  have hb := hbc i hi
  simp only [BitVec.getLsbD_and, BitVec.getLsbD_not, hi, decide_true, Bool.true_and] at *
  grind

theorem Answers.subset {engine : Engine ε} {spec : HookSpec} {reach : Mask} {env : Env ε}
    {offer : Offer} (h : Answers engine spec reach env offer) : offer.reach &&& ~~~reach = 0 := by
  cases h with
  | silent h => exact BitVec.and_not_self reach
  | analyzed => exact EngineAnalysis.narrows_subset _ reach

theorem refineRoute_iff {engine : Engine ε} {hook : Hook} {reach : Mask} {env : Env ε}
    {offer : Offer} :
    (refineRoute engine hook reach env).1 = some (offer.reach, offer.routeRank) ↔
      Answers engine hook.spec reach env offer := by
  rw [refineRoute]
  constructor
  · intro h
    split at h
    · rename_i hsilent
      obtain ⟨hreach, hrank⟩ := Prod.mk.inj (Option.some.inj h)
      cases offer
      cases hreach
      cases hrank
      exact .silent hsilent
    · rename_i analyze hanalyze
      split at h
      · cases h
      · rename_i analysis _ hanswer
        dsimp only at h
        split at h
        · cases h
        · rename_i heffects
          obtain ⟨hreach, hrank⟩ := Prod.mk.inj (Option.some.inj h)
          rw [not_or, not_ne_iff, not_ne_iff] at heffects
          cases offer
          cases hreach
          cases hrank
          exact .analyzed hanalyze (congrArg Prod.fst hanswer) heffects.1 heffects.2
  · intro h
    cases h with
    | silent h => rw [h]
    | @analyzed analyze analysis h hanswer hprepare hcommit =>
      rw [h]
      dsimp only
      obtain ⟨answer, env', hrun⟩ : ∃ answer env', analyze hook.spec env = (answer, env') :=
        ⟨_, _, rfl⟩
      rw [hrun] at hanswer ⊢
      cases hanswer
      dsimp only
      rw [if_neg (by rw [not_or, not_ne_iff, not_ne_iff]; exact ⟨hprepare, hcommit⟩)]
      rfl

/-- What fails once an engine has made its offer, in the order in which it is looked at. -/
def Offer.fails (offer : Offer) (caps : Capabilities) (runtime : Runtime) (hook : Hook)
    (testing : Bool) : Bool :=
  !eligibleMinimalFull caps hook.spec.targetKind hook.spec.requiredReach
      hook.spec.originalRequirement
      (effectiveConstraints hook.spec.constraints hook.spec.continuationPolicy) ||
    hook.spec.requiredReach &&& ~~~offer.reach ≠ 0 ||
    !honorsSymbolDefiningScope hook caps ||
    !supportsInstallContext caps runtime.installContext ||
    !supportsPlatform caps runtime.platformArchitecture runtime.platformIosVersion testing

theorem Offer.not_fails_iff {engines : EngineRef → Engine ε} {runtime : Runtime}
    {runtimeId : RuntimeId} {hook : Hook} {registration : Registration} {env : Env ε}
    {offer : Offer} (havailable : ((engines registration.engine).discovered env).1 = true)
    (hanswers : Answers (engines registration.engine) hook.spec
      (effectiveReach (env.imageCount runtimeId) hook (engines registration.engine).describe)
      ((engines registration.engine).discovered env).2 offer) :
    offer.fails (engines registration.engine).describe runtime hook registration.testing = false ↔
      Eligible engines runtime runtimeId hook registration env offer := by
  simp only [fails, Bool.or_eq_false_iff, Bool.not_eq_false', decide_eq_false_iff_not, not_ne_iff,
    eligibleMinimalFull_iff, supportsInstallContext_iff]
  constructor
  · rintro ⟨⟨⟨⟨⟨hkind, -, horiginal, hprepares, hcommits⟩, hreaches⟩, hscope⟩, hcontext⟩, hplatform⟩
    exact ⟨havailable, hanswers, hkind, horiginal, hprepares, hcommits, hreaches, hscope, hcontext,
      hplatform⟩
  · intro h
    -- the reach of an offer is part of what the descriptor claims
    have hclaimed := subset_trans h.reaches
      (subset_trans hanswers.subset (effectiveReach_subset _ _ _))
    exact ⟨⟨⟨⟨⟨h.kind, hclaimed, h.original, h.prepares, h.commits⟩, h.reaches⟩,
      h.definingScope⟩, h.context⟩, h.platform⟩

theorem analyzeCandidate_eq (engines : EngineRef → Engine ε) (runtime : Runtime)
    (runtimeId : RuntimeId) (hook : Hook) (registration : Registration) (env : Env ε) :
    analyzeCandidate engines runtime runtimeId hook registration env =
      if !((engines registration.engine).discovered env).1 then
        (none, ((engines registration.engine).discovered env).2)
      else
        match refineRoute (engines registration.engine) hook
            (effectiveReach (env.imageCount runtimeId) hook (engines registration.engine).describe)
            ((engines registration.engine).discovered env).2 with
        | (none, env) => (none, env)
        | (some (reach, routeRank), env) =>
          if Offer.fails ⟨reach, routeRank⟩ (engines registration.engine).describe runtime hook
              registration.testing then (none, env)
          else
            (some ⟨registration.engine, (engines registration.engine).describe, reach,
              bitCount (reach &&& hook.spec.preferredReach), routeRank⟩, env) := by
  rw [analyzeCandidate, Engine.discovered]
  cases (engines registration.engine).discover <;> rfl

/-- A candidate is a route exactly if its engine is eligible. -/
theorem analyzeCandidate_iff {engines : EngineRef → Engine ε} {runtime : Runtime}
    {runtimeId : RuntimeId} {hook : Hook} {registration : Registration} {env : Env ε}
    {route : Route} :
    (analyzeCandidate engines runtime runtimeId hook registration env).1 = some route ↔
      ∃ offer, Eligible engines runtime runtimeId hook registration env offer ∧
        route = ⟨registration.engine, (engines registration.engine).describe, offer.reach,
          bitCount (offer.reach &&& hook.spec.preferredReach), offer.routeRank⟩ := by
  rw [analyzeCandidate_eq]
  by_cases havailable : ((engines registration.engine).discovered env).1 = true
  swap
  · rw [if_pos (by simpa using havailable)]
    exact ⟨nofun, fun ⟨offer, h, _⟩ ↦ absurd h.available havailable⟩
  rw [if_neg (by simp [havailable])]
  obtain ⟨answer, env', hrefine⟩ : ∃ answer env', refineRoute (engines registration.engine) hook
      (effectiveReach (env.imageCount runtimeId) hook (engines registration.engine).describe)
      ((engines registration.engine).discovered env).2 = (answer, env') := ⟨_, _, rfl⟩
  have hanswers : ∀ {offer : Offer}, answer = some (offer.reach, offer.routeRank) ↔
      Answers (engines registration.engine) hook.spec
        (effectiveReach (env.imageCount runtimeId) hook (engines registration.engine).describe)
        ((engines registration.engine).discovered env).2 offer := by
    intro offer
    rw [← refineRoute_iff, hrefine]
  rw [hrefine]
  rcases answer with _ | ⟨reach, rank⟩
  · exact ⟨nofun, fun ⟨offer, h, _⟩ ↦ nomatch hanswers.2 h.answers⟩
  · dsimp only
    have hchecks : Offer.fails ⟨reach, rank⟩ _ runtime hook _ = false ↔ _ :=
      Offer.not_fails_iff havailable (hanswers.1 rfl)
    constructor
    · intro h
      split at h
      · cases h
      · rename_i hpassed
        exact ⟨⟨reach, rank⟩, hchecks.1 (Bool.eq_false_iff.2 hpassed), (Option.some.inj h).symm⟩
    · rintro ⟨offer, heligible, rfl⟩
      obtain ⟨rfl, rfl⟩ := Prod.mk.inj (Option.some.inj (hanswers.2 heligible.answers))
      rw [if_neg (by rw [hchecks.2 heligible]; exact Bool.false_ne_true)]

/-- The exact-scope bit is left only where the catalog can prove it for the target at hand. -/
theorem effectiveReach_exactScope {imageCount : Nat} {hook : Hook} {caps : Capabilities}
    (h : effectiveReach imageCount hook caps &&& reachExactImageScope ≠ 0) :
    imageCount ≠ 0 ∧ caps.exactImageScopeTargets &&& maskBit hook.spec.targetKind.code ≠ 0 ∧
      ∀ t, hook.spec.target = .memory t → t.addressIsImageRelative = true := by
  rw [effectiveReach] at h
  dsimp only at h
  split_ifs at h with hclaims hserved
  · exact absurd hclaims h
  · simp only [Bool.and_eq_true, decide_eq_true_eq] at hserved
    refine ⟨hserved.1.1.2, hserved.1.1.1, fun t ht ↦ ?_⟩
    have hrelative := hserved.1.2
    rw [ht] at hrelative
    simpa using hrelative
  · rw [BitVec.and_assoc, BitVec.and_comm (~~~reachExactImageScope), BitVec.and_not_self] at h
    exact absurd BitVec.and_zero h

theorem exactScope_of_subset {reach claimed : Mask} (hsubset : reach &&& ~~~claimed = 0)
    (h : reach &&& reachExactImageScope ≠ 0) : claimed &&& reachExactImageScope ≠ 0 := by
  intro hnone
  apply h
  rw [BitVec.eq_of_getLsbD_eq_iff] at *
  intro i hi
  have hs := hsubset i hi
  have hn := hnone i hi
  simp only [BitVec.getLsbD_and, BitVec.getLsbD_not, hi, decide_true, Bool.true_and] at *
  grind

/-! ## The loop -/

section

variable (engines : EngineRef → Engine ε) (runtime : Runtime) (runtimeId : RuntimeId)
  (hook : Hook)

/-- The routes of the eligible engines, each with the position of its registration. -/
def routes : List (Registration × Env ε) → Nat → List (Nat × Route)
  | [], _ => []
  | question :: rest, i =>
    match (analyzeCandidate engines runtime runtimeId hook question.1 question.2).1 with
    | none => routes rest (i + 1)
    | some route => (i, route) :: routes rest (i + 1)

/-- What the loop compares routes by. -/
def Route.score (route : Route) : ℕ ×ₗ ℕ := toLex (route.preferred, route.routeRank)

theorem Route.beats_iff {route best : Route} :
    route.beats (some best) = true ↔ best.score < route.score := by
  simp only [beats, score, Prod.Lex.toLex_lt_toLex, Bool.or_eq_true, Bool.and_eq_true,
    decide_eq_true_eq, gt_iff_lt]
  constructor
  · exact Or.imp_right fun h ↦ ⟨h.1.symm, h.2⟩
  · exact Or.imp_right fun h ↦ ⟨h.1.symm, h.2⟩

/-- The loop keeps the first of the best routes. -/
theorem findRoute_eq (registrations : List Registration) (best : Option (Nat × Route))
    (env : Env ε) (i : Nat) :
    (findRoute engines runtime runtimeId hook registrations (best.map Prod.snd) env).1 =
      ((routes engines runtime runtimeId hook
          (asked engines runtime runtimeId hook registrations env) i).foldl
        (List.argAux fun b c ↦ c.2.score < b.2.score) best).map Prod.snd := by
  induction registrations generalizing best env i with
  | nil => rfl
  | cons registration rest ih =>
    rw [findRoute, asked, routes]
    dsimp only
    generalize analyzeCandidate engines runtime runtimeId hook registration env = candidate
    rcases candidate with ⟨_ | route, env'⟩
    · exact ih best env' (i + 1)
    · dsimp only
      rw [List.foldl_cons, ← ih]
      congr 2
      cases best with
      | none => rfl
      | some best =>
        by_cases hbeats : route.beats (some best.2) = true
        · rw [Option.map_some, if_pos hbeats, List.argAux]
          dsimp only
          rw [if_pos (Route.beats_iff.1 hbeats)]
          rfl
        · rw [Option.map_some, if_neg hbeats, List.argAux]
          dsimp only
          rw [if_neg (mt Route.beats_iff.2 hbeats)]
          rfl

variable {engines runtime runtimeId hook}

theorem map_fst_asked (registrations : List Registration) (env : Env ε) :
    (asked engines runtime runtimeId hook registrations env).map Prod.fst = registrations := by
  induction registrations generalizing env with
  | nil => rfl
  | cons registration rest ih => rw [asked, List.map_cons, ih]

theorem mem_routes {questions : List (Registration × Env ε)} {i j : Nat} {route : Route} :
    (j, route) ∈ routes engines runtime runtimeId hook questions i ↔
      ∃ k question, questions[k]? = some question ∧ j = i + k ∧
        (analyzeCandidate engines runtime runtimeId hook question.1 question.2).1 = some route := by
  induction questions generalizing i with
  | nil => simp [routes]
  | cons question rest ih =>
    have hrest : (j, route) ∈ routes engines runtime runtimeId hook rest (i + 1) ↔
        ∃ k other, (question :: rest)[k + 1]? = some other ∧ j = i + (k + 1) ∧
          (analyzeCandidate engines runtime runtimeId hook other.1 other.2).1 = some route := by
      rw [ih]
      simp only [List.getElem?_cons_succ, Nat.add_assoc, Nat.add_comm 1]
    -- the first question, then the others
    have hsplit : (∃ k other, (question :: rest)[k]? = some other ∧ j = i + k ∧
          (analyzeCandidate engines runtime runtimeId hook other.1 other.2).1 = some route) ↔
        (j = i ∧ (analyzeCandidate engines runtime runtimeId hook question.1 question.2).1 =
          some route) ∨ (j, route) ∈ routes engines runtime runtimeId hook rest (i + 1) := by
      rw [hrest]
      constructor
      · rintro ⟨_ | k, other, hk, hj, hroute⟩
        · obtain rfl := Option.some.inj hk
          exact .inl ⟨hj, hroute⟩
        · exact .inr ⟨k, other, hk, hj, hroute⟩
      · rintro (⟨hj, hroute⟩ | ⟨k, other, hk, hj, hroute⟩)
        · exact ⟨0, question, rfl, hj, hroute⟩
        · exact ⟨k + 1, other, hk, hj, hroute⟩
    rw [hsplit, routes]
    cases (analyzeCandidate engines runtime runtimeId hook question.1 question.2).1 with
    | none => simp
    | some first => rw [List.mem_cons, Prod.mk.injEq, Option.some.injEq, eq_comm (a := first)]

theorem le_of_mem_routes {questions : List (Registration × Env ε)} {i j : Nat} {route : Route}
    (h : (j, route) ∈ routes engines runtime runtimeId hook questions i) : i ≤ j := by
  obtain ⟨k, -, -, hj, -⟩ := mem_routes.1 h
  omega

theorem pairwise_routes (questions : List (Registration × Env ε)) (i : Nat) :
    (routes engines runtime runtimeId hook questions i).Pairwise (·.1 < ·.1) := by
  induction questions generalizing i with
  | nil => exact .nil
  | cons question rest ih =>
    rw [routes]
    split
    · exact ih (i + 1)
    · exact List.pairwise_cons.2 ⟨fun other hother ↦ le_of_mem_routes hother, ih (i + 1)⟩

/-- Among equals, the one in the earliest position is kept. -/
theorem argmax_earliest {α β : Type} [LinearOrder β] {position : α → Nat} {score : α → β}
    {l : List α} (hl : l.Pairwise fun a b ↦ position a < position b) {m a : α}
    (hm : m ∈ l.argmax score) (ha : a ∈ l) (hle : score m ≤ score a) :
    position m ≤ position a := by
  classical
  have hindex := List.index_of_argmax hm ha hle
  rcases hindex.lt_or_eq with hlt | heq
  · have h := List.pairwise_iff_getElem.1 hl (l.idxOf m) (l.idxOf a)
      (List.idxOf_lt_length_of_mem (List.argmax_mem hm)) (List.idxOf_lt_length_of_mem ha) hlt
    rw [List.getElem_idxOf, List.getElem_idxOf] at h
    exact h.le
  · rw [(List.idxOf_inj (List.argmax_mem hm)).1 heq]

/-- The route the loop ends with has the best standing of all. -/
theorem standing_le_of_argmax {spec : HookSpec} {l : List (Nat × Route)}
    (hl : l.Pairwise (·.1 < ·.1)) {i j : Nat} {route other : Route} {offer offer' : Offer}
    (hm : (i, route) ∈ l.argmax fun r ↦ r.2.score) (ha : (j, other) ∈ l)
    (hroute : route.score = toLex (bitCount (offer.reach &&& spec.preferredReach), offer.routeRank))
    (hother : other.score =
      toLex (bitCount (offer'.reach &&& spec.preferredReach), offer'.routeRank)) :
    offer'.standing spec j ≤ offer.standing spec i := by
  have hle := List.le_of_mem_argmax ha hm
  have hearliest := argmax_earliest hl hm ha
  dsimp only at hle hearliest
  rw [hroute, hother] at hle hearliest
  simp only [Offer.standing, Prod.Lex.toLex_le_toLex, OrderDual.toDual_le_toDual] at *
  omega

end

/-! ## The outcome -/

/-- The engine registered at position `i`, asked as `question` says, is the one that was chosen. -/
structure Routed (engines : EngineRef → Engine ε) (runtime : Runtime) (runtimeId : RuntimeId)
    (hook : Hook) (questions : List (Registration × Env ε)) (result : Hook) (i : Nat)
    (question : Registration × Env ε) (offer : Offer) : Prop where
  asked : questions[i]? = some question
  eligible : Eligible engines runtime runtimeId hook question.1 question.2 offer
  best : ∀ j other offer', questions[j]? = some other →
    Eligible engines runtime runtimeId hook other.1 other.2 offer' →
    offer'.standing hook.spec j ≤ offer.standing hook.spec i
  engine : result.matchedEngine = some question.1.engine
  achieved : result.result.achievedReach = offer.reach
  required : hook.spec.requiredReach &&& ~~~result.result.achievedReach = 0
  exactScope : result.result.achievedReach &&& reachExactImageScope ≠ 0 →
    question.2.imageCount runtimeId ≠ 0 ∧
      (engines question.1.engine).describe.exactImageScopeTargets &&&
        maskBit hook.spec.targetKind.code ≠ 0 ∧
      ∀ t, hook.spec.target = .memory t → t.addressIsImageRelative = true

/-- **Analysis picks the best engine that may serve the request**, reports `NO_ROUTE` exactly if
there is none, and reports as unmet the preferred reach that it does not achieve. -/
theorem analyzeOne_routes (engines : EngineRef → Engine ε) (runtime : Runtime)
    (runtimeId : RuntimeId) (planId : Id) (hook : Hook) (env : Env ε) :
    let result := (analyzeOne engines runtime runtimeId planId hook env).1
    let questions := asked engines runtime runtimeId hook runtime.engines env
    questions.map Prod.fst = runtime.engines ∧
      (result.result.outcome = .noRoute ↔ ∀ question ∈ questions, ∀ offer,
        ¬Eligible engines runtime runtimeId hook question.1 question.2 offer) ∧
      (result.result.outcome ≠ .noRoute → result.result.outcome = .analyzed ∧
        ∃ i question offer,
          Routed engines runtime runtimeId hook questions result i question offer) ∧
      result.result.unmetPreferredReach =
        hook.spec.preferredReach &&& ~~~result.result.achievedReach := by
  intro result questions
  refine ⟨map_fst_asked runtime.engines env, ?_⟩
  have hfound := findRoute_eq engines runtime runtimeId hook runtime.engines none env 0
  -- the fold over all routes is the first of the best
  change _ = ((routes engines runtime runtimeId hook questions 0).argmax
    fun r ↦ r.2.score).map Prod.snd at hfound
  have hresult : result = (analyzeOne engines runtime runtimeId planId hook env).1 := rfl
  rw [analyzeOne] at hresult
  dsimp only [Option.map_none] at hresult hfound
  generalize findRoute engines runtime runtimeId hook runtime.engines none env = found
    at hresult hfound
  rcases found with ⟨_ | route, env'⟩
  · have hempty := List.argmax_eq_none.1 (Option.map_eq_none_iff.1 hfound.symm)
    rw [hresult]
    refine ⟨iff_of_true rfl fun question hquestion offer heligible ↦ ?_, absurd rfl, ?_⟩
    · obtain ⟨k, hk⟩ := List.mem_iff_getElem?.1 hquestion
      have hmem : (0 + k, _) ∈ routes engines runtime runtimeId hook questions 0 :=
        mem_routes.2 ⟨k, question, hk, rfl, analyzeCandidate_iff.2 ⟨offer, heligible, rfl⟩⟩
      rw [hempty] at hmem
      exact absurd hmem List.not_mem_nil
    · change hook.spec.preferredReach = hook.spec.preferredReach &&& ~~~0#64
      rw [BitVec.not_zero, BitVec.and_allOnes]
  · obtain ⟨⟨i, _⟩, hargmax, rfl⟩ := Option.map_eq_some_iff.1 hfound.symm
    obtain ⟨k, question, hasked, hk, hcandidate⟩ := mem_routes.1 (List.argmax_mem hargmax)
    obtain ⟨offer, heligible, rfl⟩ := analyzeCandidate_iff.1 hcandidate
    obtain rfl : i = k := by omega
    rw [hresult]
    refine ⟨iff_of_false (by simp) fun h ↦ h question (List.mem_of_getElem? hasked) offer heligible,
      fun _ ↦ ⟨rfl, i, question, offer, ?_⟩, rfl⟩
    refine ⟨hasked, heligible, fun j other offer' hother heligible' ↦ ?_, rfl, rfl,
      heligible.reaches, fun h ↦ ?_⟩
    · have hmem : (j, _) ∈ routes engines runtime runtimeId hook questions 0 :=
        mem_routes.2 ⟨j, other, hother, (Nat.zero_add j).symm,
          analyzeCandidate_iff.2 ⟨offer', heligible', rfl⟩⟩
      exact standing_le_of_argmax (pairwise_routes questions 0) hargmax hmem rfl rfl
    · exact effectiveReach_exactScope (exactScope_of_subset heligible.answers.subset h)

end HookKit
