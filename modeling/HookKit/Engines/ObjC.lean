import HookKit.Core.Targets
import HookKit.Core.Artifact
import HookKit.Lib.Inheritance

/-!
# The Objective-C method engine

`HKObjCEngine.c`: the implementation of a selector is replaced on one class.  The runtime is a
record of functions; the one that the results are about keeps a table of classes.

* `objcPrepare`, `objcCommit` — the two phases of the engine.
* `Hierarchy.runtime` — the runtime of a table: a forest of classes with their metaclasses, and the
  methods that each of them has itself.
* `Others` — methods that are added, and implementations that are changed, between the phases.
* `objcPrepare_spec` — what is captured, and that a method that is called local is one.
* `objcCommit_exact` — a commit that is complete changes what is found for the selector, on the
  class and on those that inherit it from there.
-/

set_option autoImplicit false

namespace HookKit.ObjC

open Inheritance

/-! ## The engine -/

/-- `hk_objc_runtime_t`: the state is the context, and a NULL method is `none`. -/
structure ObjcRuntime (σ μ : Type) where
  getClass : σ → String → Ptr
  getMetaclass : σ → Ptr → Ptr
  getSuperclass : σ → Ptr → Ptr
  registerSelector : σ → String → Ptr
  getInstanceMethod : σ → Ptr → Ptr → Option μ
  methodGetImp : σ → μ → Ptr
  methodGetTypes : σ → μ → Option String
  replaceMethod : σ → Ptr → Ptr → Ptr → Option String → Ptr × σ

/-- `hk_objc_status_t`. -/
inductive ObjcStatus where
  | ok | invalidArgument | classNotFound | methodNotFound | inheritedRefused | noImplementation
  | notApplicable | unsupportedPolicy
deriving DecidableEq, Repr

/-- `hk_objc_plan_t`. -/
structure ObjcPlan (μ : Type) where
  cls : Ptr
  sel : Ptr
  method : Option μ
  originalImp : Ptr
  types : Option String
  isLocal : Bool
  captured : Bool

/-- A plan after `memset`. -/
def ObjcPlan.zero {μ : Type} : ObjcPlan μ := ⟨0, 0, none, 0, none, false, false⟩

/-- `HK_OBJC_CLASS_METHOD`. -/
def objcClassMethod : Nat := 1

/-- `HK_OBJC_LOCAL_METHOD_ONLY`. -/
def objcLocalMethodOnly : Nat := 0

variable {σ μ : Type} [DecidableEq μ]

/-- `method_is_local`. -/
def methodIsLocal (rt : ObjcRuntime σ μ) (s : σ) (cls sel : Ptr) (method : μ) : Bool :=
  rt.getInstanceMethod s (rt.getSuperclass s cls) sel ≠ some method

/-- What is answered where the target is not there. -/
def absent (target : ObjcTarget) (status : ObjcStatus) : ObjcStatus :=
  if target.availability = .optionalIfPresent ∨ target.availability = .deferUntilAvailable then
    .notApplicable
  else status

/-- The class that a target names: a pointer, when given, wins over the name. -/
def lookupClass (rt : ObjcRuntime σ μ) (s : σ) (target : ObjcTarget) : Except ObjcStatus Ptr :=
  if target.cls ≠ 0 then pure target.cls
  else
    match target.className with
    | none => throw .invalidArgument
    | some name =>
      let cls := rt.getClass s name
      if cls = 0 then throw (absent target .classNotFound) else pure cls

/-- The class that `hk_objc_prepare` works on: the metaclass for a class method. -/
def resolveClass (rt : ObjcRuntime σ μ) (s : σ) (target : ObjcTarget) : Except ObjcStatus Ptr := do
  let cls ← lookupClass rt s target
  if target.methodKind = objcClassMethod then
    let metaclass := rt.getMetaclass s cls
    if metaclass = 0 then throw (absent target .classNotFound) else pure metaclass
  else pure cls

/-- The selector that it works on. -/
def resolveSelector (rt : ObjcRuntime σ μ) (s : σ) (target : ObjcTarget) : Except ObjcStatus Ptr :=
  if target.sel ≠ 0 then pure target.sel
  else
    match target.selectorName with
    | none => throw .invalidArgument
    | some name =>
      let sel := rt.registerSelector s name
      if sel = 0 then throw .invalidArgument else pure sel

/-- `hk_objc_prepare` with a runtime that is complete. -/
def objcCapture (rt : ObjcRuntime σ μ) (s : σ) (target : ObjcTarget) :
    Except ObjcStatus (ObjcPlan μ) := do
  let cls ← resolveClass rt s target
  let sel ← resolveSelector rt s target
  match rt.getInstanceMethod s cls sel with
  | none => throw (absent target .methodNotFound)
  | some method =>
    let isLocal := methodIsLocal rt s cls sel method
    if !isLocal ∧ target.inheritancePolicy = objcLocalMethodOnly then throw .inheritedRefused
    else
      let imp := rt.methodGetImp s method
      if imp = 0 then throw .noImplementation
      else
        pure {
          cls := cls
          sel := sel
          method := some method
          originalImp := imp
          types := some ((rt.methodGetTypes s method).getD "@:@")
          isLocal := isLocal
          captured := true }

/-- `hk_objc_prepare`.  The runtime is `none` where it is NULL, or an entry of it is. -/
def objcPrepare (rt : Option (ObjcRuntime σ μ)) (s : σ) (target : ObjcTarget) (plan : ObjcPlan μ) :
    ObjcStatus × ObjcPlan μ :=
  match rt with
  | none => (.invalidArgument, plan)
  | some rt =>
    match objcCapture rt s target with
    | .error status => (status, .zero)
    | .ok plan => (.ok, plan)

/-- `HK_EFFECT_OBJC_METADATA_MUTATION`. -/
def effectObjcMetadataMutation : Mask := 1#64 <<< 2

/-- What a commit records, less the fields that it leaves zero. -/
structure ObjcArtifact where
  state : ArtifactState
  effects : Mask
  engineId : StringView
  originalPointer : Ptr
  replacementPointer : Ptr
  mechanicallyReversible : Bool
  safeToReverseAfterActivation : Bool
deriving DecidableEq

/-- What the engine sees of the sink: the predecessor that is required, and the artifacts. -/
structure ObjcSink where
  requiredPredecessor : Option Ptr
  records : List ObjcArtifact

/-- What a commit leaves behind; `stores` is what it has stored in `*out_original`, in order. -/
structure ObjcCommit (σ : Type) where
  mutation : Mutation
  state : σ
  stores : List Ptr
  sink : Option ObjcSink

/-- The replacement of `hk_objc_commit`, and its artifact. -/
def replaceMethod (rt : ObjcRuntime σ μ) (plan : ObjcPlan μ) (replacement : Ptr) (cell : Bool)
    (sink : Option ObjcSink) (s : σ) : ObjcCommit σ :=
  let answer := rt.replaceMethod s plan.cls plan.sel replacement plan.types
  let artifact : ObjcArtifact := {
    state := .committed
    effects := effectObjcMetadataMutation
    engineId := ⟨some "objc", 4⟩
    -- NULL says that an override has been added
    originalPointer := if answer.1 ≠ 0 then answer.1 else plan.originalImp
    replacementPointer := replacement
    mechanicallyReversible := plan.isLocal
    safeToReverseAfterActivation := plan.isLocal }
  {
    mutation := .complete
    state := answer.2
    stores := if cell then plan.originalImp :: (if answer.1 ≠ 0 then [answer.1] else []) else []
    sink := sink.map fun k ↦ { k with records := k.records ++ [artifact] } }

/-- `hk_objc_commit`, with a cell for the original or without. -/
def objcCommit (rt : Option (ObjcRuntime σ μ)) (plan : ObjcPlan μ) (replacement : Ptr) (cell : Bool)
    (sink : Option ObjcSink) (s : σ) : ObjcCommit σ :=
  let refused : ObjcCommit σ := ⟨.none, s, [], sink⟩
  match rt with
  | none => refused
  | some rt =>
    if !plan.captured ∨ replacement = 0 then refused
    else if sink.any fun k ↦ k.requiredPredecessor.any (plan.originalImp ≠ ·) then refused
    else
      match rt.getInstanceMethod s plan.cls plan.sel with
      | none => refused
      | some method =>
        if rt.methodGetImp s method ≠ plan.originalImp then refused
        else replaceMethod rt plan replacement cell sink s

/-! ## A table of classes -/

/-- What a class has itself: the implementation, which may be NULL, and the encoding. -/
structure MethodEntry where
  imp : Ptr
  types : Option String
deriving DecidableEq, Repr

/-- The methods of all classes, by class and selector. -/
abbrev Methods := Ptr → Ptr → Option MethodEntry

/-- The classes, with what finds them.  NULL is none of them, and none is above itself: the depth
grows on the way down. -/
structure Hierarchy where
  superclass : Ptr → Ptr
  metaclass : Ptr → Ptr
  named : String → Ptr
  selector : String → Ptr
  depth : Ptr → Nat
  superclass_null : superclass 0 = 0
  superclass_depth : ∀ {cls : Ptr}, superclass cls ≠ 0 → depth (superclass cls) < depth cls

/-- A method: where it is, and for which selector. -/
abbrev Method := Ptr × Ptr

/-- A class has a method for the selector itself. -/
def Methods.has (methods : Methods) (sel cls : Ptr) : Bool := (methods cls sel).isSome

/-- Give a class a method, or another one. -/
def Methods.set (methods : Methods) (cls sel : Ptr) (entry : MethodEntry) : Methods :=
  fun c s ↦ if c = cls ∧ s = sel then some entry else methods c s

/-- `class_replaceMethod`: the method of the class gets another implementation, which leaves its
encoding as it is, or the class gets a method. -/
def Methods.replace (methods : Methods) (cls sel imp : Ptr) (types : Option String) :
    Ptr × Methods :=
  match methods cls sel with
  | some entry => (entry.imp, methods.set cls sel { entry with imp })
  | none => (0, methods.set cls sel ⟨imp, types⟩)

namespace Hierarchy

variable (h : Hierarchy)

/-- The classes as a forest. -/
def forest : Forest Ptr where
  parent cls := if h.superclass cls = 0 then none else some (h.superclass cls)
  depth := h.depth
  parent_depth hparent := by
    split at hparent
    · cases hparent
    · next hsuper =>
      cases hparent
      exact h.superclass_depth hsuper

/-- `class_getInstanceMethod`. -/
def getInstanceMethod (methods : Methods) (cls sel : Ptr) : Option Method :=
  if cls = 0 then none else (h.forest.owner (methods.has sel) cls).map fun owner ↦ (owner, sel)

/-- The runtime of a table. -/
def runtime : ObjcRuntime Methods Method where
  getClass _ name := h.named name
  getMetaclass _ cls := h.metaclass cls
  getSuperclass _ cls := h.superclass cls
  registerSelector _ name := h.selector name
  getInstanceMethod := h.getInstanceMethod
  methodGetImp methods method := ((methods method.1 method.2).map MethodEntry.imp).getD 0
  methodGetTypes methods method := (methods method.1 method.2).bind MethodEntry.types
  replaceMethod := Methods.replace

/-- The implementation that a message finds. -/
def dispatch (methods : Methods) (cls sel : Ptr) : Option Ptr :=
  (h.getInstanceMethod methods cls sel).map (h.runtime.methodGetImp methods)

/-- A class is `target`, or a descendant that reaches it without a method of its own in between. -/
def Inherits (methods : Methods) (sel target cls : Ptr) : Prop :=
  h.forest.Reaches (methods.has sel) target cls

/-- The class that a target names. -/
def classOf (target : ObjcTarget) : Ptr :=
  let cls := if target.cls ≠ 0 then target.cls else (target.className.map h.named).getD 0
  if target.methodKind = objcClassMethod then h.metaclass cls else cls

/-- The selector that a target names. -/
def selectorOf (target : ObjcTarget) : Ptr :=
  if target.sel ≠ 0 then target.sel else (target.selectorName.map h.selector).getD 0

end Hierarchy

/-- What others may do between the phases: they add methods, and change implementations. -/
def Others (methods methods' : Methods) : Prop :=
  ∀ cls sel, (methods cls sel).isSome = true → (methods' cls sel).isSome = true

/-! ## What is captured -/

theorem bind_eq_ok {ε α β : Type} {x : Except ε α} {f : α → Except ε β} {b : β} :
    (x >>= f) = .ok b ↔ ∃ a, x = .ok a ∧ f a = .ok b := by
  cases x with
  | error e => exact ⟨nofun, fun ⟨_, h, _⟩ ↦ nomatch h⟩
  | ok a => exact ⟨fun h ↦ ⟨a, rfl, h⟩, fun ⟨_, ha, h⟩ ↦ by cases ha; exact h⟩

theorem ite_throw_eq_ok {ε α : Type} {p : Prop} [Decidable p] {e : ε} {x : Except ε α} {a : α} :
    (if p then throw e else x) = .ok a ↔ ¬ p ∧ x = .ok a := by
  by_cases hp : p
  · rw [if_pos hp]
    exact ⟨nofun, fun h ↦ absurd hp h.1⟩
  · rw [if_neg hp]
    exact ⟨fun h ↦ ⟨hp, h⟩, fun h ↦ h.2⟩

section

variable {h : Hierarchy} {methods methods' : Methods} {target : ObjcTarget}

theorem lookupClass_eq {cls : Ptr} (hcls : lookupClass h.runtime methods target = .ok cls) :
    cls = if target.cls ≠ 0 then target.cls else (target.className.map h.named).getD 0 := by
  rw [lookupClass] at hcls
  split at hcls
  · next hne => rw [if_pos hne]; cases hcls; rfl
  · next heq =>
    rw [if_neg heq]
    cases hname : target.className with
    | none => rw [hname] at hcls; cases hcls
    | some name =>
      rw [hname] at hcls
      cases (ite_throw_eq_ok.mp hcls).2
      rfl

theorem resolveClass_eq {cls : Ptr} (hcls : resolveClass h.runtime methods target = .ok cls) :
    cls = h.classOf target := by
  obtain ⟨base, hbase, hmeta⟩ := bind_eq_ok.mp hcls
  rw [Hierarchy.classOf, ← lookupClass_eq hbase]
  split at hmeta
  · next hkind =>
    rw [if_pos hkind]
    cases (ite_throw_eq_ok.mp hmeta).2
    rfl
  · next hkind => rw [if_neg hkind]; cases hmeta; rfl

theorem resolveSelector_eq {sel : Ptr} (hsel : resolveSelector h.runtime methods target = .ok sel) :
    sel = h.selectorOf target := by
  rw [resolveSelector] at hsel
  rw [Hierarchy.selectorOf]
  split at hsel
  · next hne => rw [if_pos hne]; cases hsel; rfl
  · next heq =>
    rw [if_neg heq]
    cases hname : target.selectorName with
    | none => rw [hname] at hsel; cases hsel
    | some name =>
      rw [hname] at hsel
      cases (ite_throw_eq_ok.mp hsel).2
      rfl

/-- A class that looks above itself finds another method. -/
theorem has_of_isLocal {cls sel : Ptr} {method : Method}
    (hmethod : h.getInstanceMethod methods cls sel = some method)
    (hlocal : methodIsLocal h.runtime methods cls sel method = true) :
    methods.has sel cls = true := by
  by_contra hhas
  rw [Bool.not_eq_true] at hhas
  rw [methodIsLocal, decide_eq_true_eq] at hlocal
  refine hlocal ?_
  rw [Hierarchy.getInstanceMethod] at hmethod
  split at hmethod
  · cases hmethod
  obtain ⟨owner, howner, rfl⟩ := Option.map_eq_some_iff.mp hmethod
  change h.getInstanceMethod methods (h.superclass cls) sel = _
  by_cases hsuper : h.superclass cls = 0
  · have hroot : h.forest.parent cls = none := if_pos hsuper
    cases (Forest.owner_root hhas hroot).symm.trans howner
  · have hparent : h.forest.parent cls = some (h.superclass cls) := if_neg hsuper
    rw [Hierarchy.getInstanceMethod, if_neg hsuper, ← Forest.owner_parent hhas hparent, howner]
    rfl

/-- What `hk_objc_prepare` captures: the class and the selector of the target, and whether the
method is the class's own. -/
structure Captured (h : Hierarchy) (methods : Methods) (target : ObjcTarget)
    (plan : ObjcPlan Method) :
    Prop where
  cls : plan.cls = h.classOf target
  sel : plan.sel = h.selectorOf target
  imp : plan.originalImp ≠ 0
  own : plan.isLocal = true → methods.has plan.sel plan.cls = true
  localOnly : target.inheritancePolicy = objcLocalMethodOnly → plan.isLocal = true

theorem objcCapture_spec {plan : ObjcPlan Method}
    (hcapture : objcCapture h.runtime methods target = .ok plan) :
    Captured h methods target plan := by
  obtain ⟨cls, hcls, hrest⟩ := bind_eq_ok.mp hcapture
  obtain ⟨sel, hsel, hrest⟩ := bind_eq_ok.mp hrest
  cases hmethod : h.runtime.getInstanceMethod methods cls sel with
  | none => rw [hmethod] at hrest; cases hrest
  | some method =>
    rw [hmethod] at hrest
    obtain ⟨hpolicy, hrest⟩ := ite_throw_eq_ok.mp hrest
    obtain ⟨himp, hrest⟩ := ite_throw_eq_ok.mp hrest
    cases hrest
    refine ⟨resolveClass_eq hcls, resolveSelector_eq hsel, himp,
      has_of_isLocal hmethod, fun honly ↦ ?_⟩
    by_contra hlocal
    exact hpolicy ⟨by simpa using hlocal, honly⟩

/-- A plan that has been captured is one of a preparation that has succeeded. -/
theorem objcPrepare_captured {plan : ObjcPlan Method}
    (hcaptured : (objcPrepare (some h.runtime) methods target plan).2.captured = true) :
    Captured h methods target (objcPrepare (some h.runtime) methods target plan).2 := by
  rw [objcPrepare] at hcaptured ⊢
  cases hcapture : objcCapture h.runtime methods target with
  | error status => rw [hcapture] at hcaptured; cases hcaptured
  | ok plan' => exact objcCapture_spec hcapture

/-! ## What a replacement changes -/

theorem Methods.has_set (methods : Methods) (cls sel : Ptr) (entry : MethodEntry) (s c : Ptr) :
    (methods.set cls sel entry).has s c = (decide (c = cls ∧ s = sel) || methods.has s c) := by
  rw [Methods.has, Methods.set, Methods.has]
  split
  · next heq => simp [heq]
  · next hne => simp [hne]

/-- Where a message for another selector ends. -/
theorem dispatch_set_of_ne {cls sel s : Ptr} (hne : s ≠ sel) (entry : MethodEntry) (c : Ptr) :
    h.dispatch (methods.set cls sel entry) c s = h.dispatch methods c s := by
  have hhas : (methods.set cls sel entry).has s = methods.has s := by
    funext d
    rw [Methods.has_set, decide_eq_false fun hd ↦ hne hd.2, Bool.false_or]
  have himp : ∀ d, methods.set cls sel entry d s = methods d s := fun d ↦ if_neg fun hd ↦ hne hd.2
  simp only [Hierarchy.dispatch, Hierarchy.getInstanceMethod, hhas]
  split
  · rfl
  · simp only [Option.map_map]
    refine congrArg (Option.map · _) (funext fun d ↦ ?_)
    simp only [Function.comp_apply, Hierarchy.runtime, himp]

/-- A class that inherits from a class is one. -/
theorem Hierarchy.Inherits.ne_null {sel cls c : Ptr} (hcls : cls ≠ 0)
    (hc : h.Inherits methods sel cls c) :
    c ≠ 0 := by
  rintro rfl
  cases hc with
  | here => exact hcls rfl
  | up hparent _ _ =>
    rw [show h.forest.parent 0 = none from if_pos h.superclass_null] at hparent
    cases hparent

/-- A class finds what it inherits. -/
theorem Hierarchy.Inherits.dispatch_eq {sel cls c : Ptr} (hcls : cls ≠ 0)
    (hc : h.Inherits methods sel cls c) :
    h.dispatch methods c sel = h.dispatch methods cls sel := by
  rw [Hierarchy.dispatch, Hierarchy.getInstanceMethod, if_neg (hc.ne_null hcls), hc.owner_eq,
    Hierarchy.dispatch, Hierarchy.getInstanceMethod, if_neg hcls]

/-- The class and those that inherit from it find the new method. -/
theorem dispatch_set_of_inherits {sel cls c : Ptr} (hcls : cls ≠ 0) (entry : MethodEntry)
    (hc : h.Inherits methods sel cls c) :
    h.dispatch (methods.set cls sel entry) c sel = some entry.imp := by
  have howner : h.forest.owner ((methods.set cls sel entry).has sel) c = some cls := by
    refine Forest.owner_insert_of_reaches (fun d hd ↦ ?_) ?_ hc
    · rw [Methods.has_set, decide_eq_false fun hd' ↦ hd hd'.1, Bool.false_or]
    · rw [Methods.has_set, decide_eq_true ⟨rfl, rfl⟩, Bool.true_or]
  rw [Hierarchy.dispatch, Hierarchy.getInstanceMethod, if_neg (hc.ne_null hcls), howner]
  simp only [Option.map_some, Hierarchy.runtime, Methods.set, and_self, if_true, Option.getD_some]

/-- The others find what they have found. -/
theorem dispatch_set_of_not_inherits {sel cls c : Ptr} (entry : MethodEntry)
    (hc : ¬ h.Inherits methods sel cls c) :
    h.dispatch (methods.set cls sel entry) c sel = h.dispatch methods c sel := by
  have howner : h.forest.owner ((methods.set cls sel entry).has sel) c =
      h.forest.owner (methods.has sel) c := by
    refine Forest.owner_insert_of_not_reaches (fun d hd ↦ ?_) hc
    rw [Methods.has_set, decide_eq_false fun hd' ↦ hd hd'.1, Bool.false_or]
  rw [Hierarchy.dispatch, Hierarchy.getInstanceMethod, howner, Hierarchy.dispatch,
    Hierarchy.getInstanceMethod]
  split
  · rfl
  cases hd : h.forest.owner (methods.has sel) c with
  | none => rfl
  | some d =>
    have hne : d ≠ cls := fun heq ↦ hc (heq ▸ (Forest.owner_spec hd).2)
    simp only [Option.map_some, Hierarchy.runtime, Methods.set, hne, false_and, if_false]

/-- What a message finds changes for one selector, on one class and those that inherit it from
there: they have found the original, and find the replacement. -/
structure Replaced (h : Hierarchy) (methods methods' : Methods)
    (cls sel original replacement : Ptr) :
    Prop where
  found : h.dispatch methods cls sel = some original
  changed : ∀ c, h.Inherits methods sel cls c →
    h.dispatch methods c sel = some original ∧ h.dispatch methods' c sel = some replacement
  kept : ∀ c s, s ≠ sel ∨ ¬ h.Inherits methods sel cls c →
    h.dispatch methods' c s = h.dispatch methods c s

theorem replaced_set {cls sel original : Ptr} (hcls : cls ≠ 0) (entry : MethodEntry)
    (hfound : h.dispatch methods cls sel = some original) :
    Replaced h methods (methods.set cls sel entry) cls sel original entry.imp where
  found := hfound
  changed _ hc := ⟨(hc.dispatch_eq hcls).trans hfound, dispatch_set_of_inherits hcls entry hc⟩
  kept c s hother := by
    by_cases hs : s = sel
    · subst hs
      exact dispatch_set_of_not_inherits entry (hother.resolve_left (not_not.mpr rfl))
    · exact dispatch_set_of_ne hs entry c

/-- A method that is replaced back is as it was. -/
theorem replace_back {cls sel : Ptr} {entry : MethodEntry} (hentry : methods cls sel = some entry)
    (imp : Ptr) (types : Option String) :
    ((methods.set cls sel { entry with imp }).replace cls sel entry.imp types).2 = methods := by
  have hnow : methods.set cls sel { entry with imp } cls sel = some { entry with imp } :=
    if_pos ⟨rfl, rfl⟩
  rw [Methods.replace, hnow]
  funext c s
  simp only [Methods.set]
  split
  · next heq => rw [heq.1, heq.2, hentry]
  · rfl

/-! ## A commit -/

/-- A commit refuses, or what was captured is still found. -/
theorem objcCommit_cases (plan : ObjcPlan Method) (replacement : Ptr) (cell : Bool)
    (sink : Option ObjcSink) (t : Methods) :
    objcCommit (some h.runtime) plan replacement cell sink t = ⟨.none, t, [], sink⟩ ∨
      plan.captured = true ∧ plan.cls ≠ 0 ∧ h.dispatch t plan.cls plan.sel = some plan.originalImp ∧
        objcCommit (some h.runtime) plan replacement cell sink t =
          replaceMethod h.runtime plan replacement cell sink t := by
  rw [objcCommit]
  split
  · exact .inl rfl
  next harg =>
  split
  · exact .inl rfl
  cases hmethod : h.getInstanceMethod t plan.cls plan.sel with
  | none =>
    exact .inl (by rw [show h.runtime.getInstanceMethod t plan.cls plan.sel = none from hmethod])
  | some method =>
    rw [show h.runtime.getInstanceMethod t plan.cls plan.sel = some method from hmethod]
    dsimp only
    split
    · exact .inl rfl
    next himp =>
    refine .inr ⟨by simpa using (not_or.mp harg).1, fun hcls ↦ ?_, ?_, rfl⟩
    · rw [Hierarchy.getInstanceMethod, if_pos hcls] at hmethod
      cases hmethod
    · rw [Hierarchy.dispatch, hmethod, Option.map_some, not_not.mp himp]

/-- The implementation of a method of the class itself is the one that is found. -/
theorem imp_eq_of_dispatch {t : Methods} {cls sel original : Ptr}
    (hcls : cls ≠ 0) {entry : MethodEntry}
    (hentry : t cls sel = some entry) (hfound : h.dispatch t cls sel = some original) :
    entry.imp = original := by
  have hhas : t.has sel cls = true := by rw [Methods.has, hentry]; rfl
  rw [Hierarchy.dispatch, Hierarchy.getInstanceMethod, if_neg hcls,
    Forest.owner_self hhas] at hfound
  simpa [Hierarchy.runtime, hentry] using hfound

/-- A commit that has replaced a method is exact. -/
structure ExactCommit (h : Hierarchy) (t : Methods) (cls sel replacement : Ptr) (cell : Bool)
    (sink : Option ObjcSink) (result : ObjcCommit Methods) : Prop where
  mutation : result.mutation = .complete
  exact : ∃ original, Replaced h t result.state cls sel original replacement ∧
    (∀ stored ∈ result.stores, stored = original) ∧ (cell = true → result.stores ≠ []) ∧
    ∀ k, sink = some k → ∃ artifact,
      result.sink = some { k with records := k.records ++ [artifact] } ∧
      artifact.originalPointer = original ∧ artifact.replacementPointer = replacement ∧
      (artifact.mechanicallyReversible = true →
        ∀ types, (result.state.replace cls sel artifact.originalPointer types).2 = t)

/-- The class that is replaced on has a method for the selector, if the plan says so. -/
theorem replaceMethod_exact {plan : ObjcPlan Method} {t : Methods} (hcls : plan.cls ≠ 0)
    (hfound : h.dispatch t plan.cls plan.sel = some plan.originalImp)
    (hown : plan.isLocal = true → t.has plan.sel plan.cls = true)
    (replacement : Ptr) (cell : Bool) (sink : Option ObjcSink) :
    ExactCommit h t plan.cls plan.sel replacement cell sink
      (replaceMethod h.runtime plan replacement cell sink t) := by
  refine ⟨rfl, plan.originalImp, ?_⟩
  cases hentry : t plan.cls plan.sel with
  | some entry =>
    -- the method of the class itself
    have himp : entry.imp = plan.originalImp := imp_eq_of_dispatch hcls hentry hfound
    have hanswer : h.runtime.replaceMethod t plan.cls plan.sel replacement plan.types =
        (plan.originalImp, t.set plan.cls plan.sel { entry with imp := replacement }) := by
      change t.replace plan.cls plan.sel replacement plan.types = _
      rw [Methods.replace, hentry, ← himp]
    simp only [replaceMethod, hanswer]
    refine ⟨replaced_set hcls _ hfound, fun stored hstored ↦ ?_,
      fun hcell ↦ by rw [hcell]; exact nofun,
      fun k hk ↦ ⟨_, by rw [hk]; rfl, by split <;> rfl, rfl, fun _ types ↦ ?_⟩⟩
    · revert hstored
      split <;> [split; skip] <;> simp
    · have hsame : (if plan.originalImp ≠ 0 then plan.originalImp else plan.originalImp) =
          entry.imp := by
        rw [himp]
        split <;> rfl
      dsimp only
      rw [hsame]
      exact replace_back hentry replacement types
  | none =>
    -- an override of what is inherited
    have hanswer : h.runtime.replaceMethod t plan.cls plan.sel replacement plan.types =
        (0, t.set plan.cls plan.sel ⟨replacement, plan.types⟩) := by
      change t.replace plan.cls plan.sel replacement plan.types = _
      rw [Methods.replace, hentry]
    simp only [replaceMethod, hanswer]
    refine ⟨replaced_set hcls ⟨replacement, plan.types⟩ hfound, fun stored hstored ↦ ?_,
      fun hcell ↦ by rw [hcell]; exact nofun, fun k hk ↦
        ⟨_, by rw [hk]; rfl, rfl, rfl, fun hlocal ↦ ?_⟩⟩
    · revert hstored
      split <;> simp
    · have := hown hlocal
      rw [Methods.has, hentry] at this
      cases this

/-- A method of the class itself is replaced, and none is added. -/
theorem isSome_replaceMethod {plan : ObjcPlan Method} {t : Methods}
    (hown : t.has plan.sel plan.cls = true) (replacement : Ptr) (cell : Bool)
    (sink : Option ObjcSink)
    (c s : Ptr) :
    ((replaceMethod h.runtime plan replacement cell sink t).state c s).isSome = (t c s).isSome := by
  obtain ⟨entry, hentry⟩ := Option.isSome_iff_exists.mp hown
  change ((t.replace plan.cls plan.sel replacement plan.types).2 c s).isSome = _
  rw [Methods.replace, hentry]
  simp only [Methods.set]
  split
  · next heq => rw [heq.1, heq.2, hentry]; rfl
  · rfl

end

/-- A target is prepared, others add methods and change implementations, and the plan is committed:
the commit refuses and leaves everything alone, or it is complete and exact.  Where only a local
method was asked for, no class gets a method that it did not have. -/
theorem objcCommit_exact (h : Hierarchy) {before t : Methods} (hothers : Others before t)
    (target : ObjcTarget) (replacement : Ptr) (cell : Bool) (sink : Option ObjcSink)
    (plan₀ : ObjcPlan Method) :
    let plan := (objcPrepare (some h.runtime) before target plan₀).2
    let result := objcCommit (some h.runtime) plan replacement cell sink t
    (result = ⟨.none, t, [], sink⟩ ∨
      ExactCommit h t (h.classOf target) (h.selectorOf target) replacement cell sink result) ∧
    (target.inheritancePolicy = objcLocalMethodOnly →
      ∀ c s, (result.state c s).isSome = (t c s).isSome) := by
  intro plan result
  rcases objcCommit_cases (h := h) plan replacement cell sink t with
    hrefused | ⟨hcaptured, hcls, hfound, hresult⟩
  · exact ⟨.inl hrefused, fun _ c s ↦ by rw [show result = _ from hrefused]⟩
  · have hplan : Captured h before target plan := objcPrepare_captured hcaptured
    have hown : plan.isLocal = true → t.has plan.sel plan.cls = true := fun hlocal ↦
      hothers _ _ (hplan.own hlocal)
    rw [show result = _ from hresult]
    refine ⟨.inr ?_, fun honly c s ↦ isSome_replaceMethod (hown (hplan.localOnly honly)) _ _ _ c s⟩
    rw [← hplan.cls, ← hplan.sel]
    exact replaceMethod_exact hcls hfound hown replacement cell sink

/-- Four classes in a line of descent, `1` at the top, with `4` beside `3`. -/
def sampleHierarchy : Hierarchy where
  superclass cls := if cls = 2 then 1 else if cls = 3 ∨ cls = 4 then 2 else 0
  metaclass _ := 0
  named _ := 0
  selector _ := 0
  depth cls := if cls = 2 then 1 else if cls = 3 ∨ cls = 4 then 2 else 0
  superclass_null := rfl
  superclass_depth {cls} _ := by
    by_cases h2 : cls = 2
    · simp [h2]
    · by_cases h3 : cls = 3 ∨ cls = 4 <;> simp_all

/-- The class at the top has a method, and then `3` gets one as well. -/
def sampleMethods (late : Bool) : Methods := fun cls sel ↦
  if sel ≠ 10 then none
  else if cls = 1 then some ⟨100, none⟩
  else if cls = 3 ∧ late then some ⟨300, none⟩
  else none

/-- An inherited method is overridden on `2` after `3` has got its own: `2` and `4` find the
replacement, `1` and `3` find what they have found. -/
theorem objcCommit_exact_sample :
    let h := sampleHierarchy
    let target : ObjcTarget := ⟨2, none, 10, none, 0, 1, .requiredNow⟩
    let plan := (objcPrepare (some h.runtime) (sampleMethods false) target .zero).2
    let result := objcCommit (some h.runtime) plan 500 true none (sampleMethods true)
    result.mutation = .complete ∧ result.stores = [100] ∧
      Replaced h (sampleMethods true) result.state 2 10 100 500 ∧
      h.Inherits (sampleMethods true) 10 2 4 ∧ ¬ h.Inherits (sampleMethods true) 10 2 3 := by
  intro h target plan result
  have hothers : Others (sampleMethods false) (sampleMethods true) := by
    intro cls sel hsome
    simp only [sampleMethods] at hsome ⊢
    split_ifs at hsome ⊢ <;> simp_all
  have hmutation : result.mutation = .complete := by decide +kernel
  obtain ⟨hcases, -⟩ := objcCommit_exact h hothers target 500 true none .zero
  have hexact : ExactCommit h (sampleMethods true) 2 10 500 true none result :=
    hcases.resolve_left fun hrefused ↦ by
      rw [show result = _ from hrefused] at hmutation
      cases hmutation
  obtain ⟨original, hreplaced, hstores, -, -⟩ := hexact.exact
  have horiginal : original = 100 := (hstores 100 (by decide +kernel)).symm
  rw [horiginal] at hreplaced
  refine ⟨hmutation, by decide +kernel, hreplaced, .up rfl rfl .here, fun hinherits ↦ ?_⟩
  cases hinherits with
  | up _ hhas _ => cases hhas

end HookKit.ObjC
