import Federation.Planner
import Federation.Proofs.Collect
import Federation.Proofs.Workflow.Links

/-!
# Following Links

Steps are referred to by number, and a walk goes from one to the next without knowing
how far it is to the end. Here walks are written down once more in that way: every number
that is met is looked up, and a link is followed wherever it leads. Such a run can get
stuck. A number may be that of no step, and links may go round in a circle; so that a
walk without an end has a result too, it is given a number of rounds and is stuck when
they are used up.

On the graph of a workflow it does not get stuck. A link leads to a step, and to one with
a greater number than the step it comes from, so a walk from a step takes no more rounds
than there are steps from there on, and comes to what the planner says: the segment of
the step, the reach of some connectors, the branch of a scan.

A run that does not get stuck may still be refused, for the causes for which planning
fails. Both are failures of the run, and are told apart.

## Main definitions

* `Stuck`, `Halt`: Why a run has no result.
* `Run`: A computation that may get stuck.
* `Run.of`: A computation that cannot.
* `Run.follow`, `Run.walk`: Walks along links.
* `Run.branchesOf`: The branches of a workflow, each found by a walk.

## Theorems

* `Run.of_ne_stuck`: What cannot get stuck does not.
* `Run.follow_eq`, `Run.walk_eq`: Walks end, with the segment and the reach of a step.
* `Run.step_of_stopped`: Where a walk stops there is a step.
* `Run.branchesOf_eq`: Branches are found, or refused for the same cause.
-/

namespace Federation

namespace Workflow

theorem reach_none (w : Workflow) (running : List Connector) :
    w.reach none running = ⟨[], running, none⟩ := by
  unfold reach
  rw [segment_none]
  rfl

-- A walk does not go into a join.
theorem reach_join (w : Workflow) (id : Nat) (hid : id < w.size) (hjoin : w.isJoinAt id = true)
    (running : List Connector) : w.reach (some id) running = ⟨[], running, some id⟩ := by
  unfold reach
  rw [segment_of_isJoinAt hid hjoin]
  rfl

/-- A walk goes on from a step with the connectors that can execute it, if there are any. -/
theorem reach_step (w : Workflow) (id : Nat) (step : Step) (hstep : w.step? id = some step)
    (hjoin : w.isJoinAt id = false) (running : List Connector) :
    w.reach (some id) running = match ableTo step running with
      | [] => ⟨[], running, some id⟩
      | c :: narrowed => ⟨id :: (w.reach (w.next? id) (c :: narrowed)).steps,
          (w.reach (w.next? id) (c :: narrowed)).connectors,
          (w.reach (w.next? id) (c :: narrowed)).stoppedAt⟩ := by
  have hable : w.ableAt id running = ableTo step running := by
    unfold ableAt
    rw [hstep]
  unfold reach
  rw [segment_some (Graph.step?_eq_some_lt hstep) hjoin]
  cases hcase : ableTo step running with
  | nil => simp only [cover, hable, hcase]
  | cons c narrowed => simp only [cover, hable, hcase]

end Workflow

/-- Why a run gets nowhere: there is nothing at a reference, or it does not end. -/
inductive Stuck where
  | step (id : Nat)
  | branch (index : Nat)
  | stage (index : Nat)
  | rounds
deriving DecidableEq

/-- Why a run has no result: it is stuck, or what it was to find is refused. -/
inductive Halt (ε : Type) where
  | stuck (why : Stuck)
  | refused (cause : ε)
deriving DecidableEq

/-- A computation that may get stuck. -/
abbrev Run (ε α : Type) := Except (Halt ε) α

namespace Run

variable {ε α β : Type}

/-- A computation that cannot get stuck, as one that may. -/
def of (x : Except ε α) : Run ε α := x.mapError .refused

theorem of_ok (a : α) : of (.ok a : Except ε α) = .ok a := rfl

theorem of_error (e : ε) : of (.error e : Except ε α) = .error (.refused e) := rfl

/-- What cannot get stuck does not. -/
theorem of_ne_stuck (x : Except ε α) (why : Stuck) : of x ≠ .error (.stuck why) := by
  cases x with
  | ok a => simp [of_ok]
  | error e => simp [of_error]

/-- A run that comes to a computation which cannot get stuck goes on with it. -/
theorem bind_of {x : Run ε α} {y : Except ε α} (f : α → Run ε β) (g : α → Except ε β)
    (hx : x = of y) (hf : ∀ a, y = .ok a → f a = of (g a)) : (x >>= f) = of (y >>= g) := by
  subst hx
  cases y with
  | ok a => exact hf a rfl
  | error e => rfl

-- Collecting without getting stuck.
theorem mapM_of (f : α → Run ε β) (g : α → Except ε β) (l : List α)
    (h : ∀ a ∈ l, f a = of (g a)) : l.mapM f = of (l.mapM g) := by
  induction l with
  | nil => rfl
  | cons a rest ih =>
      rw [List.mapM_cons, List.mapM_cons]
      refine bind_of _ _ (h a List.mem_cons_self) fun b _ => ?_
      exact bind_of _ _ (ih fun c hc => h c (List.mem_cons_of_mem _ hc)) fun _ _ => rfl

/-- The step of a number, which has to be there. -/
def stepAt (g : Graph) (id : Nat) : Run ε Step :=
  match g.step? id with
  | some step => .ok step
  | none => .error (.stuck (.step id))

theorem stepAt_eq_ok (g : Graph) (id : Nat) (step : Step) :
    (stepAt g id : Run ε Step) = .ok step ↔ g.step? id = some step := by
  unfold stepAt
  cases g.step? id with
  | none => simp
  | some other => simp

/-- Follows links up to the next join. -/
def follow (g : Graph) : Nat → Option Nat → Run ε Segment
  | _, none => .ok ⟨[], none⟩
  | 0, some _ => .error (.stuck .rounds)
  | rounds + 1, some id => do
    let step ← stepAt g id
    if step.isJoin then
      return ⟨[], some id⟩
    else
      let rest ← follow g rounds (g.next? id)
      return ⟨id :: rest.steps, rest.join?⟩

/-- Follows links up to the next join, as long as a connector is left. -/
def walk (g : Graph) : Nat → Option Nat → List Connector → Run ε Reach
  | _, none, running => .ok ⟨[], running, none⟩
  | 0, some _, _ => .error (.stuck .rounds)
  | rounds + 1, some id, running => do
    let step ← stepAt g id
    if step.isJoin then
      return ⟨[], running, some id⟩
    else
      match ableTo step running with
      | [] => return ⟨[], running, some id⟩
      | c :: narrowed =>
        let further ← walk g rounds (g.next? id) (c :: narrowed)
        return ⟨id :: further.steps, further.connectors, further.stoppedAt⟩

/-- A walk without an end: rounds do not help against a link that leads back. -/
example : (follow ⟨[.projection [] none, .projection [] none], [⟨0, 1⟩, ⟨1, 0⟩]⟩ 40 (some 0) :
    Run Empty Segment) = .error (.stuck .rounds) := rfl

/-- A walk into the void. -/
example : (follow ⟨[.projection [] none], [⟨0, 7⟩]⟩ 40 (some 0) : Run Empty Segment)
    = .error (.stuck (.step 7)) := rfl

/-- Whether a walk of some rounds can start here: at a step from which there are at most
    as many steps as rounds. -/
def Enough (w : Workflow) (rounds : Nat) (start : Option Nat) : Prop :=
  ∀ id, start = some id → id < w.size ∧ w.size ≤ id + rounds

-- Links lead on to greater numbers, so one round less is enough for the rest of a walk.
theorem Enough.next (w : Workflow) (rounds id : Nat) (h : Enough w (rounds + 1) (some id)) :
    Enough w rounds (w.next? id) := by
  intro next hnext
  have hid := h id rfl
  have hlt := Workflow.next?_lt hnext
  omega

-- As many rounds as there are steps are enough wherever a link leads.
theorem enough_of_size_le (w : Workflow) (rounds id : Nat) (h : w.size ≤ rounds) :
    Enough w rounds (w.next? id) := by
  intro next hnext
  have hlt := Workflow.next?_lt hnext
  omega

-- A step that is there is a join or not.
theorem isJoinAt_of_step (g : Graph) (id : Nat) (step : Step) (h : g.step? id = some step) :
    g.isJoinAt id = step.isJoin := by
  unfold Graph.isJoinAt
  rw [h]
  rfl

/-- Links are followed to the end of the segment. -/
theorem follow_eq (w : Workflow) (rounds : Nat) (start : Option Nat)
    (h : Enough w rounds start) :
    (follow w.toGraph rounds start : Run ε Segment) = .ok (w.segment start) := by
  induction rounds generalizing start with
  | zero =>
      cases start with
      | none => rw [Workflow.segment_none]; rfl
      | some id =>
          have := h id rfl
          omega
  | succ rounds ih =>
      cases start with
      | none => rw [Workflow.segment_none]; rfl
      | some id =>
          have hid := (h id rfl).1
          rcases Graph.exists_step w.toGraph id hid with ⟨step, hstep⟩
          have hjoin := isJoinAt_of_step w.toGraph id step hstep
          unfold follow
          rw [(stepAt_eq_ok w.toGraph id step).mpr hstep, ok_bind]
          by_cases hs : step.isJoin = true
          · rw [if_pos hs, Workflow.segment_of_isJoinAt hid (hjoin.trans hs)]
            rfl
          · rw [if_neg hs, ih _ (h.next), ok_bind,
              Workflow.segment_some hid (hjoin.trans (Bool.eq_false_iff.mpr hs))]
            rfl

/-- Connectors get as far as their reach. -/
theorem walk_eq (w : Workflow) (rounds : Nat) (start : Option Nat) (running : List Connector)
    (h : Enough w rounds start) :
    (walk w.toGraph rounds start running : Run ε Reach) = .ok (w.reach start running) := by
  induction rounds generalizing start running with
  | zero =>
      cases start with
      | none => rw [Workflow.reach_none]; rfl
      | some id =>
          have := h id rfl
          omega
  | succ rounds ih =>
      cases start with
      | none => rw [Workflow.reach_none]; rfl
      | some id =>
          have hid := (h id rfl).1
          rcases Graph.exists_step w.toGraph id hid with ⟨step, hstep⟩
          have hjoin := isJoinAt_of_step w.toGraph id step hstep
          unfold walk
          rw [(stepAt_eq_ok w.toGraph id step).mpr hstep, ok_bind]
          by_cases hs : step.isJoin = true
          · rw [if_pos hs, w.reach_join id hid (hjoin.trans hs)]
            rfl
          · rw [if_neg hs, w.reach_step id step hstep (hjoin.trans (Bool.eq_false_iff.mpr hs))]
            cases ableTo step running with
            | nil => rfl
            | cons c narrowed =>
                simp only
                rw [ih _ _ h.next, ok_bind]
                rfl

/-- Where a walk stops there is a step, since that is where it looked. -/
theorem step_of_stopped (g : Graph) (rounds : Nat) (start : Option Nat)
    (running : List Connector) (r : Reach) (id : Nat)
    (h : (walk g rounds start running : Run ε Reach) = .ok r) (hr : r.stoppedAt = some id) :
    ∃ step, g.step? id = some step := by
  induction rounds generalizing start running r with
  | zero =>
      cases start with
      | none => unfold walk at h; cases h; cases hr
      | some other => unfold walk at h; cases h
  | succ rounds ih =>
      cases start with
      | none => unfold walk at h; cases h; cases hr
      | some other =>
          unfold walk at h
          rcases (bind_eq_ok _ _ _).mp h with ⟨step, hstep, h⟩
          have hthere := (stepAt_eq_ok g other step).mp hstep
          by_cases hs : step.isJoin = true
          · rw [if_pos hs] at h
            cases h
            cases hr
            exact ⟨step, hthere⟩
          · rw [if_neg hs] at h
            cases hable : ableTo step running with
            | nil =>
                rw [hable] at h
                cases h
                cases hr
                exact ⟨step, hthere⟩
            | cons c narrowed =>
                rw [hable] at h
                rcases (bind_eq_ok _ _ _).mp h with ⟨further, hfurther, h⟩
                cases h
                exact ih _ _ further hfurther hr

/-- The branch of a scan, found by a walk. -/
def branchOf (rounds : Nat) (g : Graph) (initial : Nat) (candidates : List Connector) :
    Run PlanningCause Branch :=
  match g.step? initial with
  | some (.scan table cluster columns) =>
    let step := Step.scan table cluster columns
    match ableTo step candidates with
    | [] => .error (.refused (.noCapableConnector table initial step.alternatives))
    | c :: running => do
      let r ← walk g rounds (g.next? initial) (c :: running)
      return ⟨table, initial, r.steps.getLastD initial, initial :: r.steps, r.connectors, r.stoppedAt⟩
  | _ =>
    .error (.refused (.unsupportedStatement
      ("execution path starting at " ++ stepLabel initial ++ ", which is not a scan")))

/-- Why a branch that stops before its join cannot be planned, once the step at which it
    stops has been looked up. -/
def gap? (g : Graph) (b : Branch) : Run PlanningCause (Option PlanningCause) :=
  match b.next with
  | none => return none
  | some next => do
    let step ← stepAt g next
    if step.isJoin then return none
    else return some (.noCapableConnector b.table next step.alternatives)

/-- The cause of the first branch that stops before its join. -/
def firstGap? (g : Graph) : List Branch → Run PlanningCause (Option PlanningCause)
  | [] => return none
  | b :: rest => do
    match ← gap? g b with
    | some cause => return some cause
    | none => firstGap? g rest

/-- The branches of a workflow, one for each scan. -/
def branchesOf (rounds : Nat) (s : Snapshot) (w : Workflow) :
    Run PlanningCause (List Branch) := do
  let found := candidates s w
  let branches ← w.initialSteps.mapM fun id =>
    branchOf rounds w.toGraph id
      ((((w.step? id).bind Step.scannedTable?).bind found.get?).getD [])
  match ← firstGap? w.toGraph branches with
  | some cause => throw (.refused cause)
  | none => return branches

-- The step at which a branch stops is looked up and found.
theorem gap?_eq (w : Workflow) (b : Branch)
    (h : ∀ next, b.next = some next → ∃ step, w.step? next = some step) :
    gap? w.toGraph b = .ok (b.gap? w) := by
  unfold gap? Branch.gap?
  cases hnext : b.next with
  | none => rfl
  | some next =>
      rcases h next hnext with ⟨step, hstep⟩
      simp only
      rw [(stepAt_eq_ok w.toGraph next step).mpr hstep, ok_bind,
        isJoinAt_of_step w.toGraph next step hstep, hstep]
      by_cases hs : step.isJoin = true
      · rw [if_pos hs, if_pos hs]
        rfl
      · rw [if_neg hs, if_neg hs]
        rfl

theorem firstGap?_eq (w : Workflow) (branches : List Branch)
    (h : ∀ b ∈ branches, ∀ next, b.next = some next → ∃ step, w.step? next = some step) :
    firstGap? w.toGraph branches = .ok (branches.findSome? (Branch.gap? w)) := by
  induction branches with
  | nil => rfl
  | cons b rest ih =>
      unfold firstGap?
      rw [gap?_eq w b (h b List.mem_cons_self), ok_bind, List.findSome?_cons]
      cases b.gap? w with
      | some cause => rfl
      | none => exact ih fun c hc => h c (List.mem_cons_of_mem _ hc)

section Branches

variable (w : Workflow) (rounds : Nat) (hrounds : w.size ≤ rounds)

include hrounds

-- From where a walk ends the planner can go on.
theorem step_of_reach (id : Nat) (running : List Connector) (stop : Nat)
    (h : (w.reach (w.next? id) running).stoppedAt = some stop) :
    ∃ step, w.step? stop = some step :=
  step_of_stopped w.toGraph rounds (w.next? id) running _ stop
    (walk_eq w rounds (ε := Empty) _ running (enough_of_size_le w rounds id hrounds)) h

theorem branchOf_eq (initial : Nat) (found : List Connector) :
    branchOf rounds w.toGraph initial found = of (Branch.of w initial found) := by
  unfold branchOf Branch.of
  cases w.step? initial with
  | none => rfl
  | some step =>
      cases step with
      | scan table cluster columns =>
          simp only
          cases ableTo (.scan table cluster columns) found with
          | nil => rfl
          | cons c running =>
              simp only
              rw [walk_eq w rounds _ _ (enough_of_size_le w rounds initial hrounds), ok_bind]
              rfl
      | filter relation operation => rfl
      | projection columns window => rfl
      | join relation alternatives => rfl

-- A branch leads to a step, if it leads anywhere.
theorem step_of_next (initial : Nat) (found : List Connector) (b : Branch)
    (hb : Branch.of w initial found = .ok b) (next : Nat) (hnext : b.next = some next) :
    ∃ step, w.step? next = some step := by
  unfold Branch.of at hb
  split at hb
  · simp only at hb
    split at hb
    · cases hb
    · cases hb
      exact step_of_reach w rounds hrounds initial _ next hnext
  · cases hb

/-- The branches of a workflow are found by walking, or refused for the same cause. -/
theorem branchesOf_eq (s : Snapshot) :
    branchesOf rounds s w = of (Federation.branchesOf s w) := by
  unfold branchesOf Federation.branchesOf
  refine bind_of _ _ (mapM_of _ _ _ fun id _ => branchOf_eq w rounds hrounds id _)
    fun branches hbranches => ?_
  have hgap : firstGap? w.toGraph branches = .ok (branches.findSome? (Branch.gap? w)) := by
    refine firstGap?_eq w branches fun b hb next hnext => ?_
    rcases exists_of_mem_mapM _ _ _ hbranches b hb with ⟨id, _, hid⟩
    exact step_of_next w rounds hrounds id _ b hid next hnext
  rw [hgap, ok_bind]
  cases branches.findSome? (Branch.gap? w) with
  | none => rfl
  | some cause => rfl

end Branches

end Run

end Federation
