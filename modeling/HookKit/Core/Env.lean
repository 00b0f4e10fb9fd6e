import HookKit.Core.Base
import Mathlib.Data.List.Basic

/-!
# The surroundings of the core

Everything a call can meet that is not the core's own data: the state the engines work on, the
image catalogs, and the outcomes of the allocations to come.  An engine callback may change all of
it, and so may anybody else between two calls.
-/

set_option autoImplicit false

namespace HookKit

abbrev RuntimeId := Nat

/-- The surroundings, over the state `ε` the engines work on. -/
structure Env (ε : Type) where
  host : ε
  /-- `hk_image_catalog_count` of a runtime's catalog. -/
  imageCount : RuntimeId → Nat
  /-- `hk_image_catalog_generation` of a runtime's catalog. -/
  generation : RuntimeId → Nat
  /-- Which of the coming allocations succeed; all of them do once the list is used up. -/
  heap : List Bool

variable {ε : Type}

/-- One allocation. -/
def Env.alloc (env : Env ε) : Bool × Env ε :=
  match env.heap with
  | [] => (true, env)
  | ok :: rest => (ok, { env with heap := rest })

/-- Several allocations, all of which are made before any of them is looked at. -/
def Env.allocAll (env : Env ε) : Nat → Bool × Env ε
  | 0 => (true, env)
  | n + 1 =>
    let (ok, env) := env.alloc
    let (oks, env) := env.allocAll n
    (ok && oks, env)

@[simp] theorem Env.alloc_host (env : Env ε) : env.alloc.2.host = env.host := by
  rw [Env.alloc]; split <;> rfl

@[simp] theorem Env.alloc_generation (env : Env ε) : env.alloc.2.generation = env.generation := by
  rw [Env.alloc]; split <;> rfl

@[simp] theorem Env.allocAll_generation (env : Env ε) (n : Nat) :
    (env.allocAll n).2.generation = env.generation := by
  induction n generalizing env with
  | zero => rfl
  | succ n ih => rw [Env.allocAll]; simp [ih]

/-- No allocation fails any more. -/
def Env.Ample (env : Env ε) : Prop := env.heap = []

theorem Env.Ample.alloc {env : Env ε} (h : env.Ample) : env.alloc = (true, env) := by
  rw [Env.Ample] at h
  rw [Env.alloc, h]

end HookKit
