import HookKit.Plan.SystemSteps

/-!
# Commits on several threads

`hk_plan_commit` takes the ownership lock for every lookup of the group selection, for a whole group
commit and for a whole one-hook commit, and releases it in between.  Here a commit is taken apart at
these places, and the sections of any number of commits may follow each other in any order.

* `Selection.look` — the group selection, one lookup after the other.
* `Committer.turn` — a commit up to the end of its next section.
* `Concurrent.step`, `Concurrent.run` — the process with its threads, and a schedule.
* `commit_alone` — a commit that nobody comes between does what `hk_plan_commit` does.
-/

set_option autoImplicit false

namespace HookKit

open Loop

variable {ε : Type} (engines : EngineRef → Engine ε)

/-! ## One commit -/

/-- How far `hk_plan_commit_group_count` has come when it releases the lock: it has not begun, or it
has taken some hooks into the wave and knows the generation they are compared with, or it is done. -/
inductive Selection where
  | start
  | looked (generation count : Nat)
  | chosen (count : Nat)
deriving DecidableEq, Repr

/-- `return count > 1 ? count : 0`. -/
def Selection.return (count : Nat) : Selection := .chosen (if count > 1 then count else 0)

/-- `hk_plan_commit_group_count` up to the end of its next lookup, for the hooks from the current
position on. -/
def Selection.look (owners : Owners) (generation : Nat) (waiting : List Hook) :
    Selection → Selection
  | .start =>
    match waiting.head? with
    | none => .chosen 0
    | some first =>
      if startsCommitWave engines first && (owners.lookup first.targetKey).isNone then
        .looked generation 1
      else .chosen 0
  | .looked generation count =>
    match waiting.head?, waiting[count]? with
    | some first, some hook =>
      if joinsCommitWave generation first (waiting.take count) hook &&
          (owners.lookup hook.targetKey).isNone then
        .looked generation (count + 1)
      else .return count
    | _, _ => .return count
  | .chosen count => .chosen count

/-- The rest of a pass of the loop in `hk_plan_commit`, when the selection has returned. -/
def commitChosen (plan : CommitPlan) (count : Nat) (st : CommitState ε) : Flow (CommitState ε) :=
  match plan.order[st.position]? with
  | none => .next { st with position := st.position + 1 }
  | some index =>
    match st.hooks[index]? with
    | none => .next { st with position := st.position + 1 }
    | some hook =>
      if hook.result.outcome ≠ .prepared then .next { st with position := st.position + 1 }
      else if count > 1 then commitGroup engines plan count st
      else
        let st :=
          match domainRefused plan hook st with
          | some domain => refuseDomain engines plan domain st
          | none => commitSingle engines plan index hook st
        .next { st with position := st.position + 1 }

/-- A thread in the loop of `hk_plan_commit`.  The world of `state` is the one its last section has
left. -/
structure Committer (ε : Type) where
  plan : Plan
  loop : CommitPlan
  state : CommitState ε
  selection : Selection

/-- The hooks from the current position on. -/
def Committer.waiting (c : Committer ε) : List Hook :=
  hooksAt c.state.hooks (c.loop.order.drop c.state.position)

/-- What a turn makes of a commit: it goes on, or its loop is over. -/
inductive Committer.Turned (ε : Type) where
  | more (c : Committer ε)
  | ended (flow : Flow (CommitState ε))

/-- A commit up to the end of its next section, which comes to the world `w`. -/
def Committer.turn (c : Committer ε) (w : World ε) : Turned ε :=
  let st := { c.state with world := w }
  if st.position < c.loop.order.length then
    match c.selection with
    | .chosen count =>
      match commitChosen engines c.loop count st with
      | .stop st => .ended (.stop st)
      | .next st => .more { c with state := st, selection := .start }
    | selection =>
      .more { c with
        state := st
        selection := selection.look engines w.owners (w.env.generation c.loop.runtime) c.waiting }
  else .ended (.next st)

/-- What `hk_plan_commit` does behind its loop. -/
def finishCommit (runtime : Runtime) (plan : Plan) :
    Flow (CommitState ε) → Status × Plan × Runtime × World ε
  | .stop st => (.outOfMemory, { plan with hooks := st.hooks }, runtime, st.world)
  | .next st =>
    match createReport plan.hooks.length st.world with
    | (false, w) => (.outOfMemory, { plan with hooks := st.hooks }, runtime, w)
    | (true, w) =>
      let (runtime, w) := publishArtifacts runtime st.ledger w
      (.ok, { plan with hooks := st.hooks, state := st.planState }, runtime, w)

theorem commitPlan_eq (runtime : Runtime) (plan : Plan) (w : World ε) :
    commitPlan engines runtime plan w =
      if plan.state ≠ .prepared ∧ plan.state ≠ .partly then (.invalidState, plan, runtime, w)
      else
        match allocCommit plan w with
        | (none, w) => (.outOfMemory, plan, runtime, w)
        | (some order, w) =>
          finishCommit runtime plan (commitLoop engines (plan.toCommit runtime order) plan.hooks w)
          := by
  rw [commitPlan]
  split
  · rfl
  · generalize allocCommit plan w = allocated
    obtain ⟨order?, w₁⟩ := allocated
    cases order? with
    | none => rfl
    | some order =>
      dsimp only [Plan.toCommit]
      cases commitLoop engines _ plan.hooks w₁ <;> rfl

theorem commitIter_eq (plan : CommitPlan) (st : CommitState ε) :
    commitIter engines plan st = commitChosen engines plan
      (commitGroupCount engines st.world.owners (st.world.env.generation plan.runtime)
        (hooksAt st.hooks (plan.order.drop st.position))) st := rfl

/-! ## The process -/

/-- The calls that hand no hook to a commit callback. -/
def Op.keepsTargets : Op ε → Bool
  | .commit _ | .drain _ => false
  | _ => true

/-- What happens next: a thread calls `hk_plan_commit` on the plan in a slot, or a thread that has
done so goes on to the end of its next section, or something else is called. -/
inductive Turn (ε : Type) where
  | begins (slot : Nat)
  | goes (slot : Nat)
  | call (op : Op ε) (keeps : op.keepsTargets = true)

/-- The process and the commits that are under way in it, by the slots of their plans. -/
structure Concurrent (ε : Type) where
  system : System ε
  threads : Nat → Option (Committer ε)

namespace Concurrent

variable (stripCode : Ptr → Ptr)

/-- The commit of the plan in a slot has come to where `c` is. -/
def put (s : Concurrent ε) (slot : Nat) (c : Committer ε) : Concurrent ε where
  system := s.system.setWorld c.state.world
  threads := Function.update s.threads slot (some c)

/-- The commit of the plan in a slot is over. -/
def finish (s : Concurrent ε) (slot : Nat) (plan : Plan) (flow : Flow (CommitState ε)) :
    Concurrent ε :=
  let (_, committed, runtime, w) := finishCommit (s.system.runtimes plan.runtime) plan flow
  { system := ((s.system.setPlan slot (some committed)).setRuntime plan.runtime runtime).setWorld w
    threads := Function.update s.threads slot none }

/-- A thread calls `hk_plan_commit`. -/
def start (s : Concurrent ε) (slot : Nat) (plan : Plan) : Concurrent ε :=
  if plan.state ≠ .prepared ∧ plan.state ≠ .partly then s
  else
    match allocCommit plan s.system.world with
    | (none, w) => { s with system := s.system.setWorld w }
    | (some order, w) => s.put slot {
        plan := plan
        loop := plan.toCommit (s.system.runtimes plan.runtime) order
        state := .start plan.hooks w
        selection := .start }

/-- A thread goes on. -/
def goOn (s : Concurrent ε) (slot : Nat) (c : Committer ε) : Concurrent ε :=
  match c.turn engines s.system.world with
  | .more c => s.put slot c
  | .ended flow => s.finish slot c.plan flow

/-- One turn. -/
def step (s : Concurrent ε) : Turn ε → Concurrent ε
  | .begins slot =>
    match s.threads slot, s.system.plans slot with
    | none, some plan => s.start slot plan
    | _, _ => s
  | .goes slot =>
    match s.threads slot with
    | none => s
    | some c => s.goOn engines slot c
  | .call op _ => { s with system := s.system.step engines stripCode op }

/-- A schedule. -/
def run (s : Concurrent ε) (turns : List (Turn ε)) : Concurrent ε :=
  turns.foldl (step engines stripCode) s

/-- Every turn of the schedule meets a condition when it is taken. -/
def Meets (cond : Concurrent ε → Turn ε → Prop) : Concurrent ε → List (Turn ε) → Prop
  | _, [] => True
  | s, turn :: rest => cond s turn ∧ Meets cond (s.step engines stripCode turn) rest

variable {engines stripCode}

instance Meets.decidable {cond : Concurrent ε → Turn ε → Prop} [∀ s turn, Decidable (cond s turn)] :
    ∀ (s : Concurrent ε) (turns : List (Turn ε)), Decidable (Meets engines stripCode cond s turns)
  | _, [] => inferInstanceAs (Decidable True)
  | s, turn :: rest =>
    have : Decidable (Meets engines stripCode cond (s.step engines stripCode turn) rest) :=
      Meets.decidable _ rest
    inferInstanceAs (Decidable (cond s turn ∧ Meets engines stripCode cond _ rest))

theorem Meets.append {cond : Concurrent ε → Turn ε → Prop} {turns turns' : List (Turn ε)}
    {s : Concurrent ε} (h : Meets engines stripCode cond s (turns ++ turns')) :
    Meets engines stripCode cond (s.run engines stripCode turns) turns' := by
  induction turns generalizing s with
  | nil => exact h
  | cons turn rest ih => exact ih h.2

variable (engines stripCode)

/-! ## A commit that nobody comes between -/

/-- Only the commit of the plan in a slot goes on. -/
def Alone (slot : Nat) : Concurrent ε → Concurrent ε → Prop :=
  Relation.ReflTransGen fun s s' ↦ s.step engines stripCode (.goes slot) = s'

variable {engines stripCode} {s : Concurrent ε} {slot : Nat} {c : Committer ε}

theorem put_goes : (s.put slot c).step engines stripCode (.goes slot) =
    match c.turn engines c.state.world with
    | .more c => s.put slot c
    | .ended flow => s.finish slot c.plan flow := by
  have hthread : (s.put slot c).threads slot = some c := Function.update_self _ _ _
  rw [step, hthread]
  dsimp only [goOn]
  rw [show (s.put slot c).system.world = c.state.world from rfl]
  cases c.turn engines c.state.world with
  | more c' =>
    dsimp only [put]
    rw [Function.update_idem]
    rfl
  | ended flow =>
    dsimp only [finish, put]
    rw [Function.update_idem]
    rfl

/-- One lookup. -/
theorem put_looks (c : Committer ε) (hmore : c.state.position < c.loop.order.length)
    (hselection : ∀ count, c.selection ≠ .chosen count) :
    (s.put slot c).step engines stripCode (.goes slot) = s.put slot { c with
      selection := c.selection.look engines c.state.world.owners
        (c.state.world.env.generation c.loop.runtime) c.waiting } := by
  rw [put_goes, Committer.turn]
  dsimp only
  rw [if_pos hmore]
  cases h : c.selection with
  | chosen count => exact absurd h (hselection count)
  | start => rfl
  | looked generation count => rfl

/-- The selection that has taken `previous` into the wave. -/
theorem looked_alone {first : Hook} {previous rest : List Hook}
    (hmore : c.state.position < c.loop.order.length) (hfirst : previous.head? = some first)
    (hwaiting : c.waiting = previous ++ rest) :
    Alone engines stripCode slot
      (s.put slot { c with
        selection := .looked (c.state.world.env.generation c.loop.runtime) previous.length })
      (s.put slot { c with
        selection := .return (previous.length + commitWaveLength c.state.world.owners
          (c.state.world.env.generation c.loop.runtime) first previous rest) }) := by
  induction rest generalizing previous with
  | nil =>
    refine .single ((put_looks { c with selection := .looked _ _ } hmore (by simp)).trans ?_)
    rw [show Committer.waiting { c with selection := .looked _ _ } = c.waiting from rfl,
      Selection.look, hwaiting]
    simp [commitWaveLength]
  | cons hook rest ih =>
    refine .head (put_looks { c with selection := .looked _ _ } hmore (by simp)) ?_
    have hhead : c.waiting.head? = some first := by
      rw [hwaiting, List.head?_append, hfirst]
      rfl
    have hnext : c.waiting[previous.length]? = some hook := by
      rw [hwaiting, List.getElem?_append_right le_rfl, Nat.sub_self]
      rfl
    have htake : c.waiting.take previous.length = previous := by
      rw [hwaiting, List.take_left]
    rw [show Committer.waiting { c with selection := .looked _ _ } = c.waiting from rfl,
      commitWaveLength, Selection.look, hhead, hnext, htake]
    dsimp only
    split
    · have hrest := @ih (previous ++ [hook]) (by rw [List.head?_append, hfirst]; rfl)
        (by rw [hwaiting, List.append_assoc]; rfl)
      rw [List.length_append, List.length_singleton] at hrest
      rwa [Nat.add_assoc] at hrest
    · exact .refl

/-- The whole selection. -/
theorem start_alone (hmore : c.state.position < c.loop.order.length)
    (hstart : c.selection = .start) :
    Alone engines stripCode slot (s.put slot c)
      (s.put slot { c with selection := .chosen (commitGroupCount engines c.state.world.owners
        (c.state.world.env.generation c.loop.runtime) c.waiting) }) := by
  refine .head (put_looks c hmore (by rw [hstart]; simp)) ?_
  rw [hstart, Selection.look]
  cases hwaiting : c.waiting with
  | nil => exact .refl
  | cons first rest =>
    rw [commitGroupCount]
    dsimp only [List.head?_cons]
    split
    · exact looked_alone hmore rfl (show c.waiting = [first] ++ rest from hwaiting)
    · exact .refl

/-- A pass of the loop. -/
theorem pass_alone (hmore : c.state.position < c.loop.order.length)
    (hstart : c.selection = .start) :
    Alone engines stripCode slot (s.put slot c)
      (match commitIter engines c.loop c.state with
        | .stop st => s.finish slot c.plan (.stop st)
        | .next st => s.put slot { c with state := st }) := by
  refine (start_alone hmore hstart).trans (.single ?_)
  rw [put_goes, Committer.turn]
  dsimp only
  rw [if_pos hmore, commitIter_eq]
  rw [Committer.waiting]
  cases commitChosen engines c.loop _ c.state with
  | stop st => rfl
  | next st =>
    dsimp only
    rw [hstart]

/-- The loop. -/
theorem loop_alone (fuel : Nat) (hfuel : c.loop.order.length - c.state.position ≤ fuel)
    (hstart : c.selection = .start) :
    Alone engines stripCode slot (s.put slot c) (s.finish slot c.plan
      (Loop.run (fun st ↦ decide (st.position < c.loop.order.length)) (commitIter engines c.loop)
        fuel c.state)) := by
  induction fuel generalizing c with
  | zero =>
    refine .single ?_
    rw [put_goes, Committer.turn]
    dsimp only
    rw [if_neg (by omega), Loop.run]
  | succ fuel ih =>
    rw [Loop.run]
    split
    · rename_i hmore
      rw [decide_eq_true_eq] at hmore
      refine (pass_alone hmore hstart).trans ?_
      cases hiter : commitIter engines c.loop c.state with
      | stop st => exact .refl
      | next st =>
        have hposition := commitIter_position hiter
        exact @ih { c with state := st } (by dsimp only; omega) hstart
    · rename_i hover
      refine .single ?_
      rw [put_goes, Committer.turn]
      dsimp only
      rw [if_neg (by simpa using hover)]

/-- **A commit that nobody comes between** does what `hk_plan_commit` does. -/
theorem commit_alone (s : Concurrent ε) (hidle : s.threads slot = none) :
    Alone engines stripCode slot (s.step engines stripCode (.begins slot))
      { s with system := s.system.step engines stripCode (.commit slot) } := by
  have hthreads : Function.update s.threads slot none = s.threads := by
    rw [← hidle, Function.update_eq_self]
  cases hplan : s.system.plans slot with
  | none =>
    rw [step, hidle, hplan, System.step, System.onPlan, hplan]
    exact .refl
  | some plan =>
    -- a commit that is not accepted leaves the plan and the runtime
    have hkept : ∀ w, ((s.system.setPlan slot (some plan)).setRuntime plan.runtime
        (s.system.runtimes plan.runtime)).setWorld w = s.system.setWorld w := by
      intro w
      rw [System.setPlan, ← hplan, Function.update_eq_self, System.setRuntime,
        Function.update_eq_self]
    rw [step, hidle, hplan, System.step, System.onPlan, hplan]
    dsimp only
    rw [commitPlan_eq, start]
    split
    · dsimp only
      rw [hkept]
      exact .refl
    · generalize allocCommit plan s.system.world = allocated
      obtain ⟨order?, w⟩ := allocated
      cases order? with
      | none =>
        dsimp only
        rw [hkept]
        exact .refl
      | some order =>
        dsimp only
        have hloop := @loop_alone _ engines stripCode s slot ⟨plan, plan.toCommit
          (s.system.runtimes plan.runtime) order, .start plan.hooks w, .start⟩ order.length
          (Nat.sub_le _ _) rfl
        rw [finish, hthreads] at hloop
        exact hloop

end Concurrent

end HookKit
