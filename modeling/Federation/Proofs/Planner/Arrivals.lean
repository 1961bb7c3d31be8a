import Federation.Proofs.Planner.Division
import Federation.Proofs.Planner.Lookup

/-!
# Planning Never Gets Stuck

The planner finds what feeds a join by going through all branches and all joins before
it. In one pass the same is found as it comes: whatever ends at a join is left there
when it is made, and taken away when the pass gets to the join. What is left for the
stages of a plan are references, to a branch or a stage by its place, and these are
looked up again when the join is its turn, as are the steps themselves. A reference to
a stage that has yet to be made, or to a branch that is not there, would get the run
stuck.

What lies at a join that is still to come is always what the planner will find there, in
the same order, so every reference is to a branch or to a stage made before. With the
walks that end within as many rounds as there are steps, a run in this way has the
result of the planner, for every statement and every registry.

## Main definitions

* `Arrivals`: What has been left at joins.
* `Run.nativeStep`, `Run.nativeFragments`: The pass that finds native joins.
* `Run.mergeStep`, `Run.mergeStages`: The pass that makes stages.
* `Run.plan`: A whole run.

## Theorems

* `Arrivals.waiting_send`: What lies at a join after something was left at one.
* `Run.nativeStep_eq`, `Run.nativeFragments_eq`: Native joins, one and all.
* `Run.mergeStep_eq`, `Run.mergeStages_eq`: Stages, one and all.
* `Run.planSelect_eq`: The run of a read.
* `plan_never_stuck`: No run gets stuck, and each ends with the result of planning.
* `nested_never_stuck`: A nested join in five rounds.
-/

namespace Federation

/-- What has been left at joins, each by its number. -/
abbrev Arrivals (α : Type) := SortedMap Nat (List α)

namespace Arrivals

variable {α : Type}

/-- What lies at a join. -/
def waiting (m : Arrivals α) (join : Nat) : List α := (m.get? join).getD []

/-- Leaves something at a join, behind what lies there, unless it leads to none. -/
def send (m : Arrivals α) (a : α) : Option Nat → Arrivals α
  | none => m
  | some join => m.insert join (m.waiting join ++ [a])

@[simp] theorem waiting_empty (join : Nat) : waiting (∅ : Arrivals α) join = [] := rfl

/-- What was left at a join lies there last, and nothing else has changed. -/
theorem waiting_send (m : Arrivals α) (a : α) (target : Option Nat) (join : Nat) :
    (m.send a target).waiting join
      = m.waiting join ++ if target = some join then [a] else [] := by
  cases target with
  | none => simp [send]
  | some other =>
      by_cases h : join = other
      · simp [send, waiting, SortedMap.get?_insert, h]
      · simp [send, waiting, SortedMap.get?_insert, h, Ne.symm h]

-- What is taken away at one join does not concern another.
theorem waiting_erase (m : Arrivals α) (taken join : Nat) (h : join ≠ taken) :
    waiting (m.erase taken) join = m.waiting join := by
  unfold waiting
  rw [SortedMap.get?_erase, if_neg h]

end Arrivals

namespace Run

variable {ε : Type}

/-! ### Native joins -/

/-- The fragment of a join from what lies there, if the join is native. -/
def fragmentAt (rounds : Nat) (g : Graph) (join : Nat) : List Fragment → Run ε (Option Fragment)
  | [left, right] => do
    let step ← stepAt g join
    match ableTo step (sharedWith right.connectors left.connectors) with
    | [] => return none
    | c :: running =>
      let r ← walk g rounds (g.next? join) (c :: running)
      let fragment : Fragment :=
        ⟨r.connectors, ascending (left.tables ++ right.tables), r.stoppedAt⟩
      match r.stoppedAt with
      | none => return some fragment
      | some id => do
        let stop ← stepAt g id
        if stop.isJoin then return some fragment else return none
  | _ => return none

/-- Takes what lies at a join, and leaves its fragment at the next one. -/
def nativeStep (rounds : Nat) (g : Graph) (run : Arrivals Fragment × List (Nat × Fragment))
    (join : Nat) : Run ε (Arrivals Fragment × List (Nat × Fragment)) := do
  match ← fragmentAt rounds g join (run.1.waiting join) with
  | some f => return (Arrivals.send (run.1.erase join) f f.downstream, run.2 ++ [(join, f)])
  | none => return (run.1.erase join, run.2)

/-- What branches leave at joins. -/
def branchArrivals (branches : List Branch) : Arrivals Fragment :=
  branches.foldl (fun m b => m.send (Fragment.ofBranch b) b.next) ∅

/-- The native joins with their fragments, in one pass. -/
def nativeFragments (rounds : Nat) (w : Workflow) (branches : List Branch) :
    Run ε (List (Nat × Fragment)) := do
  let run ← w.joins.foldlM (nativeStep rounds w.toGraph) (branchArrivals branches, [])
  return run.2

/-- Whether what lies at joins to come is what feeds them. -/
def Fed (branches : List Branch) (todo : List Nat)
    (run : Arrivals Fragment × List (Nat × Fragment)) : Prop :=
  ∀ join ∈ todo, run.1.waiting join = feeding join branches run.2

-- At first there is what branches have left.
theorem fed_branchArrivals (branches : List Branch) (todo : List Nat) :
    Fed branches todo (branchArrivals branches, []) := by
  intro join _
  have hsent : ∀ (l : List Branch) (m : Arrivals Fragment),
      (l.foldl (fun m b => m.send (Fragment.ofBranch b) b.next) m).waiting join
        = m.waiting join
          ++ (l.map Fragment.ofBranch).filter fun f => f.downstream == some join := by
    intro l
    induction l with
    | nil => intro m; simp
    | cons b rest ih =>
        intro m
        rw [List.foldl_cons, ih, Arrivals.waiting_send, List.map_cons, List.filter_cons,
          List.append_assoc]
        by_cases h : b.next = some join
        · simp [Fragment.ofBranch, h]
        · simp [Fragment.ofBranch, h]
  unfold branchArrivals feeding
  rw [hsent]
  simp

-- A fragment that is found comes after all that fed a join before.
theorem feeding_snoc (branches : List Branch) (found : List (Nat × Fragment)) (join other : Nat)
    (f : Fragment) : feeding join branches (found ++ [(other, f)])
      = feeding join branches found ++ if f.downstream = some join then [f] else [] := by
  unfold feeding
  by_cases h : f.downstream = some join
  · simp [h]
  · simp [h]

section Native

variable (w : Workflow) (rounds : Nat) (hrounds : w.size ≤ rounds)

include hrounds

theorem fragmentAt_eq (join : Nat) (hjoin : join < w.size) (branches : List Branch)
    (found : List (Nat × Fragment)) :
    (fragmentAt rounds w.toGraph join (feeding join branches found) : Run ε (Option Fragment))
      = .ok (fragmentAt? w branches found join) := by
  rcases Graph.exists_step w.toGraph join hjoin with ⟨step, hstep⟩
  have hable : ∀ l, w.ableAt join l = ableTo step l := by
    intro l
    unfold Workflow.ableAt
    rw [hstep]
  unfold fragmentAt fragmentAt?
  rcases feeding join branches found with _ | ⟨left, _ | ⟨right, _ | ⟨third, more⟩⟩⟩
  · rfl
  · rfl
  · simp only [(stepAt_eq_ok w.toGraph join step).mpr hstep, ok_bind, hable]
    cases ableTo step (sharedWith right.connectors left.connectors) with
    | nil => rfl
    | cons c running =>
        simp only
        rw [walk_eq w rounds _ _ (enough_of_size_le w rounds join hrounds), ok_bind]
        cases hstop : (w.reach (w.next? join) (c :: running)).stoppedAt with
        | none => rfl
        | some id =>
            rcases step_of_reach w rounds hrounds join _ id hstop with ⟨stop, hid⟩
            simp only
            rw [(stepAt_eq_ok w.toGraph id stop).mpr hid, ok_bind, Option.all_some,
              isJoinAt_of_step w.toGraph id stop hid]
            by_cases hs : stop.isJoin = true
            · rw [if_pos hs, if_pos hs]; rfl
            · rw [if_neg hs, if_neg hs]; rfl
  · rfl

/-- One join more: what the pass finds is what the planner finds, and what it leaves is
    what feeds the joins to come. -/
theorem nativeStep_eq (branches : List Branch) (join : Nat) (todo : List Nat)
    (hjoin : join < w.size) (hnew : join ∉ todo)
    (run : Arrivals Fragment × List (Nat × Fragment)) (h : Fed branches (join :: todo) run) :
    ∃ arrivals, (nativeStep rounds w.toGraph run join : Run ε _)
        = .ok (arrivals, match fragmentAt? w branches run.2 join with
          | some fragment => run.2 ++ [(join, fragment)]
          | none => run.2) ∧
      Fed branches todo (arrivals, match fragmentAt? w branches run.2 join with
          | some fragment => run.2 ++ [(join, fragment)]
          | none => run.2) := by
  have hother : ∀ j ∈ todo, j ≠ join := fun j hj heq => hnew (heq ▸ hj)
  unfold nativeStep
  rw [h join List.mem_cons_self, fragmentAt_eq w rounds hrounds join hjoin, ok_bind]
  cases fragmentAt? w branches run.2 join with
  | none =>
      refine ⟨_, rfl, fun j hj => ?_⟩
      rw [Arrivals.waiting_erase _ _ _ (hother j hj), h j (List.mem_cons_of_mem _ hj)]
  | some f =>
      refine ⟨_, rfl, fun j hj => ?_⟩
      rw [Arrivals.waiting_send, Arrivals.waiting_erase _ _ _ (hother j hj),
        h j (List.mem_cons_of_mem _ hj), feeding_snoc]

/-- The native joins are found in one pass. -/
theorem nativeFragments_eq (branches : List Branch) :
    (nativeFragments rounds w branches : Run ε _)
      = .ok (Federation.nativeFragments w branches) := by
  suffices hpass : ∀ (todo : List Nat) (run : Arrivals Fragment × List (Nat × Fragment)),
      (∀ join ∈ todo, join < w.size) → todo.Nodup → Fed branches todo run →
        ∃ arrivals, (todo.foldlM (nativeStep rounds w.toGraph) run : Run ε _)
          = .ok (arrivals, todo.foldl (fun found join =>
              match fragmentAt? w branches found join with
              | some fragment => found ++ [(join, fragment)]
              | none => found) run.2) by
    rcases hpass w.joins (branchArrivals branches, []) (fun join => Graph.lt_of_mem_joins _ join)
      ((Graph.ids_nodup _).filter _) (fed_branchArrivals branches w.joins) with ⟨arrivals, hrun⟩
    unfold nativeFragments
    rw [hrun]
    rfl
  intro todo
  induction todo with
  | nil => intro run _ _ _; exact ⟨run.1, rfl⟩
  | cons join rest ih =>
      intro run hlt hnodup hfed
      rcases List.nodup_cons.mp hnodup with ⟨hnew, hrest⟩
      rcases nativeStep_eq w rounds hrounds branches join rest (hlt join List.mem_cons_self) hnew
        run hfed with ⟨arrivals, hstep, hnext⟩
      rw [List.foldlM_cons, hstep, ok_bind, List.foldl_cons]
      exact ih _ (fun j hj => hlt j (List.mem_cons_of_mem _ hj)) hrest hnext

end Native

/-! ### Stages -/

/-- What an input brings to a join, once the branch or the stage has been looked up. -/
def feedAt (branches : List AssignedBranch) (stages : List Stage) : StageInput → Run ε Feed
  | .branch i =>
    match branches[i]? with
    | some b => .ok (Feed.ofBranch b i)
    | none => .error (.stuck (.branch i))
  | .stage i =>
    match stages[i]? with
    | some stage => .ok (Feed.ofStage stage i)
    | none => .error (.stuck (.stage i))

/-- Who executes a join, given the steps themselves: the connector settled for it, or
    else one that merges. -/
def executorOf (settled : List (Nat × Connector)) (join : Nat) (step : Step) (after : List Step)
    (feeds : List Feed) : Option StageExecutor :=
  match (settled.lookup join).bind fun c =>
      (c.capabilityFor? step).map fun capability => .connector c capability with
  | some executor => some executor
  | none =>
    if step.alternatives.contains .selectInnerJoinPartialResults then
      (heaviest ((tally feeds).filter fun entry =>
        entry.1.supports .selectInnerJoinPartialResults
          && after.all fun next => entry.1.canRun next)).map fun entry =>
            .connector entry.1 .selectInnerJoinPartialResults
    else
      none

/-- The stage of a join from what lies there. The steps after the join are looked up
    whether or not somebody is asked to execute them. -/
def stageOf (fallback : MergeFallback) (g : Graph) (branches : List AssignedBranch)
    (settled : List (Nat × Connector)) (stages : List Stage) (join : Nat) (after : List Nat)
    (inputs : List StageInput) : Run PlanningCause Stage := do
  let feeds ← inputs.mapM (feedAt branches stages)
  let step ← stepAt g join
  let following ← after.mapM (stepAt g)
  let tables := ascending (feeds.flatMap Feed.tables)
  match executorOf settled join step following feeds with
  | some executor => return ⟨join, join :: after, inputs, tables, executor⟩
  | none =>
    match fallback with
    | .coordinator => return ⟨join, join :: after, inputs, tables, .coordinator⟩
    | .reject => throw (.refused (.noCommonConnector tables (some join)))

/-- Takes what lies at a join, and leaves a reference to its stage at the next one. -/
def mergeStep (rounds : Nat) (fallback : MergeFallback) (g : Graph)
    (branches : List AssignedBranch) (settled : List (Nat × Connector))
    (run : Arrivals StageInput × List Stage) (join : Nat) :
    Run PlanningCause (Arrivals StageInput × List Stage) := do
  let rest ← follow g rounds (g.next? join)
  let stage ← stageOf fallback g branches settled run.2 join rest.steps (run.1.waiting join)
  return (Arrivals.send (run.1.erase join) (.stage run.2.length) rest.join?, run.2 ++ [stage])

/-- References to branches, left at the joins that they lead to. -/
def inputArrivals (branches : List AssignedBranch) : Arrivals StageInput :=
  branches.zipIdx.foldl (fun m e => m.send (.branch e.2) e.1.branch.next) ∅

/-- The stages of a plan in branches, in one pass. -/
def mergeStages (rounds : Nat) (fallback : MergeFallback) (w : Workflow)
    (branches : List AssignedBranch) (settled : List (Nat × Connector)) :
    Run PlanningCause (List Stage) := do
  let run ← w.joins.foldlM (mergeStep rounds fallback w.toGraph branches settled)
    (inputArrivals branches, [])
  return run.2

/-- Whether references that lie at joins to come are to what feeds them. -/
def Referred (w : Workflow) (branches : List AssignedBranch) (todo : List Nat)
    (run : Arrivals StageInput × List Stage) : Prop :=
  ∀ join ∈ todo, run.1.waiting join = (feedsOf w branches run.2 join).map Feed.input

-- At first there are references to branches.
theorem referred_inputArrivals (w : Workflow) (branches : List AssignedBranch)
    (todo : List Nat) : Referred w branches todo (inputArrivals branches, []) := by
  intro join _
  have hsent : ∀ (l : List (AssignedBranch × Nat)) (m : Arrivals StageInput),
      (l.foldl (fun m e => m.send (.branch e.2) e.1.branch.next) m).waiting join
        = m.waiting join ++ (l.filterMap fun e =>
            if e.1.branch.next = some join then some (Feed.ofBranch e.1 e.2) else none).map
              Feed.input := by
    intro l
    induction l with
    | nil => intro m; simp
    | cons e rest ih =>
        intro m
        rw [List.foldl_cons, ih, Arrivals.waiting_send, List.filterMap_cons, List.append_assoc]
        by_cases h : e.1.branch.next = some join
        · simp [Feed.ofBranch, h]
        · simp [h]
  unfold inputArrivals
  rw [hsent]
  simp [feedsOf, Feed.ofBranch]

-- A stage that is made comes after all that fed a join before.
theorem feedsOf_snoc (w : Workflow) (branches : List AssignedBranch) (stages : List Stage)
    (stage : Stage) (join : Nat) : feedsOf w branches (stages ++ [stage]) join
      = feedsOf w branches stages join
        ++ if w.downstream stage.join = some join then [Feed.ofStage stage stages.length]
          else [] := by
  unfold feedsOf
  by_cases h : w.downstream stage.join = some join
  · simp [List.zipIdx_append, Feed.ofStage, h]
  · simp [List.zipIdx_append, h]

-- References to what feeds a join are to branches and stages that are there.
theorem feedAt_feedsOf (w : Workflow) (branches : List AssignedBranch) (stages : List Stage)
    (join : Nat) : (((feedsOf w branches stages join).map Feed.input).mapM
      (feedAt branches stages) : Run ε (List Feed)) = .ok (feedsOf w branches stages join) := by
  have hfound : ∀ f ∈ feedsOf w branches stages join,
      (feedAt branches stages f.input : Run ε Feed) = .ok (id f) := by
    intro f hf
    rcases (mem_feedsOf w branches stages join f).mp hf with
      ⟨i, b, hb, _, rfl⟩ | ⟨i, stage, hstage, _, rfl⟩
    · simp [Feed.ofBranch, feedAt, hb]
    · simp [Feed.ofStage, feedAt, hstage]
  rw [List.mapM_map]
  exact (mapM_eq_ok_map _ id _ hfound).trans (by rw [List.map_id])

-- A connector can run the steps that were looked up if it can run those of their numbers.
theorem all_canRun_eq (w : Workflow) (c : Connector) (after : List Nat) (following : List Step)
    (hafter : (after.mapM (stepAt w.toGraph) : Run ε (List Step)) = .ok following) :
    (following.all fun next => c.canRun next)
      = after.all fun id => (w.step? id).any c.canRun := by
  have hall := (mapM_eq_ok _ _ _).mp hafter
  clear hafter
  induction hall with
  | nil => rfl
  | cons hid _ ih =>
      rw [List.all_cons, List.all_cons, ih, (stepAt_eq_ok w.toGraph _ _).mp hid]
      rfl

theorem nativeExecutor?_eq (w : Workflow) (settled : List (Nat × Connector)) (join : Nat)
    (step : Step) (hstep : w.step? join = some step) :
    nativeExecutor? w settled join = (settled.lookup join).bind fun c =>
      (c.capabilityFor? step).map fun capability => .connector c capability := by
  unfold nativeExecutor?
  rw [hstep]
  cases settled.lookup join with
  | none => rfl
  | some c =>
      cases h : c.capabilityFor? step with
      | none => simp [h]
      | some capability => simp [h]

-- Whoever is to execute a join is told by the steps, wherever they are found.
theorem executorOf_eq (w : Workflow) (settled : List (Nat × Connector)) (join : Nat) (step : Step)
    (hstep : w.step? join = some step) (after : List Nat) (following : List Step)
    (hafter : (after.mapM (stepAt w.toGraph) : Run ε (List Step)) = .ok following)
    (feeds : List Feed) :
    executorOf settled join step following feeds
      = (nativeExecutor? w settled join).or ((mergeExecutor? w join after feeds).map fun c =>
          .connector c .selectInnerJoinPartialResults) := by
  have hcan := fun c => all_canRun_eq w c after following hafter
  unfold executorOf mergeExecutor?
  rw [← nativeExecutor?_eq w settled join step hstep, hstep]
  cases nativeExecutor? w settled join with
  | some executor => rfl
  | none =>
      simp only [hcan, Option.map_some, Option.getD_some, Option.none_or]
      by_cases h : step.alternatives.contains .selectInnerJoinPartialResults = true
      · rw [if_pos h, if_pos h, Option.map_map]
        rfl
      · rw [if_neg h, if_neg h]
        rfl

section Merge

variable (w : Workflow) (rounds : Nat) (hrounds : w.size ≤ rounds)

/-- The stage of a join is made from references to what feeds it, or refused for the
    same cause. -/
theorem stageOf_eq (fallback : MergeFallback) (branches : List AssignedBranch)
    (settled : List (Nat × Connector)) (stages : List Stage) (join : Nat) (hjoin : join < w.size) :
    stageOf fallback w.toGraph branches settled stages join (w.segment (w.next? join)).steps
        ((feedsOf w branches stages join).map Feed.input)
      = of (stageAt fallback w branches settled stages join) := by
  rcases Graph.exists_step w.toGraph join hjoin with ⟨step, hstep⟩
  -- The steps after a join are there.
  have hthere : ∀ id ∈ (w.segment (w.next? join)).steps,
      (stepAt w.toGraph id : Run PlanningCause Step) = .ok ((w.step? id).getD default) := by
    intro id hid
    have hlt := (Workflow.le_of_mem_stretch w join hjoin id (List.mem_cons_of_mem _ hid)).2
    rcases Graph.exists_step w.toGraph id hlt with ⟨next, hnext⟩
    rw [(stepAt_eq_ok w.toGraph id next).mpr hnext, hnext]
    rfl
  have hafter := mapM_eq_ok_map _ _ _ hthere
  unfold stageOf stageAt
  rw [feedAt_feedsOf, ok_bind, (stepAt_eq_ok w.toGraph join step).mpr hstep, ok_bind, hafter,
    ok_bind]
  simp only
  rw [executorOf_eq w settled join step hstep _ _ hafter]
  cases nativeExecutor? w settled join with
  | some executor => rfl
  | none =>
      cases mergeExecutor? w join (w.segment (w.next? join)).steps
        (feedsOf w branches stages join) with
      | some c => rfl
      | none =>
          cases fallback with
          | coordinator => rfl
          | reject => rfl

include hrounds

/-- One join more: the stage is that of the planner, and what the pass leaves refers to
    what feeds the joins to come. -/
theorem mergeStep_eq (fallback : MergeFallback) (branches : List AssignedBranch)
    (settled : List (Nat × Connector)) (join : Nat) (todo : List Nat) (hjoin : join < w.size)
    (hnew : join ∉ todo) (run : Arrivals StageInput × List Stage)
    (h : Referred w branches (join :: todo) run) :
    (∃ cause, stageAt fallback w branches settled run.2 join = .error cause ∧
        mergeStep rounds fallback w.toGraph branches settled run join
          = .error (.refused cause)) ∨
      ∃ stage arrivals, stageAt fallback w branches settled run.2 join = .ok stage ∧
        mergeStep rounds fallback w.toGraph branches settled run join
          = .ok (arrivals, run.2 ++ [stage]) ∧
        Referred w branches todo (arrivals, run.2 ++ [stage]) := by
  unfold mergeStep
  rw [follow_eq w rounds _ (enough_of_size_le w rounds join hrounds), ok_bind,
    h join List.mem_cons_self, stageOf_eq w fallback branches settled run.2 join hjoin]
  cases hstage : stageAt fallback w branches settled run.2 join with
  | error cause => exact Or.inl ⟨cause, rfl, rfl⟩
  | ok stage =>
      refine Or.inr ⟨stage, _, rfl, rfl, fun j hj => ?_⟩
      have hother : j ≠ join := fun heq => hnew (heq ▸ hj)
      have hof := (stageAt_spec fallback w branches settled run.2 join stage hstage).join_eq
      rw [Arrivals.waiting_send, Arrivals.waiting_erase _ _ _ hother,
        h j (List.mem_cons_of_mem _ hj), feedsOf_snoc, hof, List.map_append]
      by_cases hd : w.downstream join = some j
      · have hd' : (w.segment (w.next? join)).join? = some j := hd
        rw [if_pos hd, if_pos hd']
        rfl
      · have hd' : ¬(w.segment (w.next? join)).join? = some j := hd
        rw [if_neg hd, if_neg hd']
        rfl

/-- The stages are made in one pass, or refused for the same cause. -/
theorem mergeStages_eq (fallback : MergeFallback) (branches : List AssignedBranch)
    (settled : List (Nat × Connector)) :
    mergeStages rounds fallback w branches settled
      = of (Federation.mergeStages fallback w branches settled) := by
  suffices hpass : ∀ (todo : List Nat) (run : Arrivals StageInput × List Stage),
      (∀ join ∈ todo, join < w.size) → todo.Nodup → Referred w branches todo run →
        (todo.foldlM (mergeStep rounds fallback w.toGraph branches settled) run >>=
            fun out => .ok out.2)
          = of (todo.foldlM (fun stages join => do
              return stages ++ [← stageAt fallback w branches settled stages join]) run.2) from
    hpass w.joins (inputArrivals branches, []) (fun join => Graph.lt_of_mem_joins _ join)
      ((Graph.ids_nodup _).filter _) (referred_inputArrivals w branches w.joins)
  intro todo
  induction todo with
  | nil => intro run _ _ _; rfl
  | cons join rest ih =>
      intro run hlt hnodup href
      rcases List.nodup_cons.mp hnodup with ⟨hnew, hrest⟩
      rw [List.foldlM_cons, List.foldlM_cons]
      rcases mergeStep_eq w rounds hrounds fallback branches settled join rest
        (hlt join List.mem_cons_self) hnew run href with
        ⟨cause, hstage, hstep⟩ | ⟨stage, arrivals, hstage, hstep, hnext⟩
      · rw [hstage, hstep]
        rfl
      · rw [hstage, hstep]
        exact ih _ (fun j hj => hlt j (List.mem_cons_of_mem _ hj)) hrest hnext

end Merge

/-! ### Whole runs -/

/-- A run whose refusal is a failure of planning in some phase. -/
def during {α : Type} (query : QueryId) (phase : Phase) (run : Run PlanningCause α) :
    Run PlanningError α :=
  run.mapError fun
    | .stuck why => .stuck why
    | .refused cause => .refused ⟨query, phase, cause⟩

/-- The branches and stages of a read that is not planned as a whole. -/
def splitPlan (rounds : Nat) (fallback : MergeFallback) (query : QueryId) (w : Workflow)
    (branches : List Branch) (native : List (Nat × Fragment)) : Run PlanningCause MultiPlan := do
  let settled ← of (settle native)
  let assigned ← of (branches.mapM (assign settled))
  let stages ← mergeStages rounds fallback w assigned settled
  return ⟨query, assigned, stages, w⟩

/-- The plan of a read against a snapshot. -/
def planSelect (rounds : Nat) (config : PlannerConfig) (query : QueryId) (w : Workflow)
    (s : Snapshot) : Run PlanningError Plan := do
  let branches ← during query .unplanned (branchesOf rounds s w)
  let native ← nativeFragments rounds w branches
  match wholeFragment? w branches native with
  | some fragment => during query .pathsBuilt (of (wholePlan query w fragment))
  | none =>
    let split ← during query .pathsBuilt
      (splitPlan rounds config.fallback query w branches native)
    during query .connectorsChosen (of (limitStages config split))

/-- The plan of a statement. Only a read refers to anything by number or by place. -/
def plan (rounds : Nat) (r : Registry) (config : PlannerConfig) (s : Statement) :
    Run PlanningError Plan :=
  match s.body with
  | .select w => do
    let snapshot ← of (Federation.during s.query .unplanned
      (Snapshot.capture r w.clusters []).value)
    planSelect rounds config s.query w snapshot
  | _ => of (Federation.plan r config s).value

theorem during_of {α : Type} (query : QueryId) (phase : Phase) (x : Except PlanningCause α) :
    during query phase (of x) = of (Federation.during query phase x) := by
  cases x with
  | ok a => rfl
  | error cause => rfl

theorem splitPlan_eq (rounds : Nat) (fallback : MergeFallback) (query : QueryId) (w : Workflow)
    (hrounds : w.size ≤ rounds) (branches : List Branch) (native : List (Nat × Fragment)) :
    splitPlan rounds fallback query w branches native
      = of (Federation.splitPlan fallback query w branches native) := by
  unfold splitPlan Federation.splitPlan
  refine bind_of _ _ rfl fun settled _ => bind_of _ _ rfl fun assigned _ => ?_
  exact bind_of _ _ (mergeStages_eq w rounds hrounds fallback assigned settled) fun _ _ => rfl

/-- The run of a read ends with what planning makes of it. -/
theorem planSelect_eq (rounds : Nat) (config : PlannerConfig) (query : QueryId) (w : Workflow)
    (hrounds : w.size ≤ rounds) (s : Snapshot) :
    planSelect rounds config query w s = of (Federation.planSelect config query w s) := by
  unfold planSelect Federation.planSelect
  rw [branchesOf_eq w rounds hrounds s, during_of]
  refine bind_of _ _ rfl fun branches _ => ?_
  rw [nativeFragments_eq w rounds hrounds branches, ok_bind]
  simp only
  cases wholeFragment? w branches (Federation.nativeFragments w branches) with
  | some fragment => exact during_of query .pathsBuilt _
  | none =>
      simp only
      rw [splitPlan_eq rounds config.fallback query w hrounds, during_of]
      exact bind_of _ _ rfl fun split _ => during_of query .connectorsChosen _

end Run

/-- How many steps a statement has: only a read has any. -/
def Statement.size (s : Statement) : Nat :=
  match s.body with
  | .select w => w.size
  | _ => 0

/-- With as many rounds as the statement has steps, a run ends with the result of planning,
    a plan or a failure, and does not get stuck: every number is that of a step, every
    place that of a branch or of a stage made before, and no walk goes on for ever, since
    each link leads to a step of a greater number. -/
theorem plan_never_stuck (rounds : Nat) (r : Registry) (config : PlannerConfig)
    (s : Statement) (h : s.size ≤ rounds) :
    Run.plan rounds r config s = Run.of (plan r config s).value ∧
      (∀ why, Run.plan rounds r config s ≠ .error (.stuck why)) ∧
      ∀ w, s.body = .select w → ∀ id next, w.next? id = some next → id < next ∧ next < w.size := by
  have heq : Run.plan rounds r config s = Run.of (plan r config s).value := by
    unfold Statement.size at h
    unfold Run.plan plan
    cases hbody : s.body with
    | select w =>
        rw [hbody] at h
        exact Run.bind_of _ _ rfl fun snapshot _ =>
          Run.planSelect_eq rounds config s.query w h snapshot
    | insert _ => rfl
    | command _ => rfl
  refine ⟨heq, fun why => ?_, fun w _ id next hnext => Workflow.next?_lt hnext⟩
  rw [heq]
  exact Run.of_ne_stuck _ why

/-- The read of three tables, as a statement. -/
def nestedStatement : Statement := ⟨⟨"q"⟩, ⟨"shop"⟩, .select nestedRead⟩

/-- Where every cluster has a connector of its own, five rounds get a nested join as far as
    a plan whose second stage refers to the first. -/
theorem nested_never_stuck :
    nestedStatement.size ≤ 5 ∧ ∃ m,
      Run.plan 5 (.universal fun cluster => [⟨cluster.text⟩]) .default nestedStatement
        = .ok (.multi m) ∧
      m.stages.map Stage.inputs = [[.branch 0, .branch 1], [.branch 2, .stage 0]] := by
  have hsize : nestedStatement.size ≤ 5 := by decide
  have hplan : ∃ m,
      (plan (.universal fun cluster => [⟨cluster.text⟩]) .default nestedStatement).value
        = .ok (.multi m) ∧
      m.stages.map Stage.inputs = [[.branch 0, .branch 1], [.branch 2, .stage 0]] :=
    ⟨_, rfl, rfl⟩
  rcases hplan with ⟨m, hm, hinputs⟩
  refine ⟨hsize, m, ?_, hinputs⟩
  rw [(plan_never_stuck 5 _ _ _ hsize).1, hm]
  rfl

end Federation
