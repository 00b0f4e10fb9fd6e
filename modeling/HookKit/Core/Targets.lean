import HookKit.Core.Base

/-!
# Targets and hook requests

`HookKitTargets.h` and the request part of `HookKitPlan.h`: what a caller asks for.  A pointer to
another object of the plan is that object's identifier, so `commit_after` is a list of hook
identifiers and `domain` a domain identifier.
-/

set_option autoImplicit false

namespace HookKit

/-- `hk_image_selector_kind_t`. -/
inductive ImageSelectorKind where
  | anyLoaded | mainExecutable | exactPath | exactUuid | exactHeader | explicitSet
deriving DecidableEq, Repr

/-- The enumerator's value. -/
def ImageSelectorKind.code : ImageSelectorKind → Nat
  | .anyLoaded => 0
  | .mainExecutable => 1
  | .exactPath => 2
  | .exactUuid => 3
  | .exactHeader => 4
  | .explicitSet => 5

/-- `hk_image_selector_t`.  The explicit set is `none` when its pointer is NULL and its count is
not `0`, and a member is `none` when that entry is NULL. -/
inductive ImageSelector where
  | mk (kind : ImageSelectorKind) (path : Option String) (uuid : List Byte) (header : Ptr)
      (explicitSet : Option (List (Option ImageSelector)))

namespace ImageSelector

def kind : ImageSelector → ImageSelectorKind
  | .mk kind _ _ _ _ => kind

def path : ImageSelector → Option String
  | .mk _ path _ _ _ => path

def uuid : ImageSelector → List Byte
  | .mk _ _ uuid _ _ => uuid

def header : ImageSelector → Ptr
  | .mk _ _ _ header _ => header

def explicitSet : ImageSelector → Option (List (Option ImageSelector))
  | .mk _ _ _ _ set => set

/-- A selector after `memset`, which selects any loaded image. -/
def zero : ImageSelector := .mk .anyLoaded none (List.replicate 16 0) 0 (some [])

end ImageSelector

/-- `hk_bytes_view_t` with its data; `none` is a NULL data pointer. -/
structure BytesView where
  data : Option (List Byte)
  size : Nat

/-- `hk_symbol_target_t`. -/
structure SymbolTarget where
  name : Option String
  nameConvention : Nat
  visibility : Nat
  definingImage : ImageSelector
  callerImageScope : ImageSelector
  aliasPolicy : Nat
  interiorAddressPermitted : Bool

/-- `hk_address_target_t`. -/
structure AddressTarget where
  address : Ptr
  expectedImage : ImageSelector
  expectedUuid : Option (List Byte)
  expectedInitialBytes : BytesView
  mayStripPacOrThumbState : Bool

/-- `hk_objc_target_t`. -/
structure ObjcTarget where
  cls : Ptr
  className : Option String
  sel : Ptr
  selectorName : Option String
  methodKind : Nat
  inheritancePolicy : Nat
  availability : Availability

/-- `hk_memory_target_t`. -/
structure MemoryTarget where
  address : Ptr
  addressIsImageRelative : Bool
  baseImage : ImageSelector
  replacementBytes : BytesView
  expectedBytes : BytesView
  expectedMask : BytesView
  size : Nat
  kind : Nat

/-- `hk_target_spec_t` together with the `target_kind` that selects its member.  Swift requests
have no member. -/
inductive Target where
  | symbol (target : SymbolTarget)
  | address (target : AddressTarget)
  | objc (target : ObjcTarget)
  | memory (target : MemoryTarget)
  | swiftVtable

/-- The `target_kind` field of a request. -/
def Target.kind : Target → TargetKind
  | .symbol _ => .functionSymbol
  | .address _ => .functionAddress
  | .objc _ => .objcMethod
  | .memory _ => .memoryPatch
  | .swiftVtable => .swiftVtable

/-- `hk_hook_spec_t`.  `commitAfter` is `none` when the pointer is NULL and the count is not `0`,
and an entry is `none` when it is NULL. -/
structure HookSpec where
  structSize : Nat
  stableHookId : Option String
  target : Target
  replacement : Ptr
  requiredReach : Mask
  preferredReach : Mask
  originalRequirement : OriginalRequirement
  continuationPolicy : ContinuationPolicy
  constraints : Mask
  availability : Availability
  role : OperationRole
  domain : Option Id
  commitOrder : Nat
  commitAfter : Option (List (Option Id))

/-- `sizeof(hk_hook_spec_t)`. -/
def sizeofHookSpec : Nat := 264

def HookSpec.targetKind (spec : HookSpec) : TargetKind := spec.target.kind

/-- The hooks a request has to wait for. -/
def HookSpec.after (spec : HookSpec) : List Id := (spec.commitAfter.getD []).filterMap id

/-- The availability that decides whether an absent target is waited for: the target's own for an
Objective-C method, the request's for everything else. -/
def HookSpec.effectiveAvailability (spec : HookSpec) : Availability :=
  match spec.target with
  | .objc target => target.availability
  | _ => spec.availability

/-- `hk_domain_spec_t`, less the policies nothing in the core reads. -/
structure DomainSpec where
  structSize : Nat
  stableDomainId : Option String
  domainOrder : Nat
  requireAllMandatoryPrepared : Bool

/-- `sizeof(hk_domain_spec_t)`. -/
def sizeofDomainSpec : Nat := 32

end HookKit
