import Federation.Proofs.Planner.Outcome
import Federation.Proofs.Workflow.Partition

/-!
# Work Divided among Branches and Stages

A plan in branches has a branch for each scan and a stage for each join, and each
of them executes the stretch that starts there. `Divided` says all there is to
such a plan: how connectors were settled and assigned, and what each stage is,
given those before it. Whatever else holds of plans in branches follows from it.

Since the stretches of scans and joins hold every step once, so do the branches
and stages. Two different walks are behind this. A branch goes on as long as some
connector can execute the next step, a stage as long as no join comes; but a plan
is only made where each branch gets to its join, so both end at the same places.

## Main definitions

* `Divided`: What a plan in branches is.
* `IsRun`: Steps in the order of their links, up to the next join.
* `StepsOnce`: Every step is executed once.

## Theorems

* `divided_of_multi`: A plan in branches is divided.
* `stretch_isRun`: A stretch is such a run.
* `steps_once`: Every step of a workflow is executed once.
* `nested_steps`: How the work of a nested join is divided.
-/

namespace Federation

/-- What a plan in branches is, given what was settled for native joins. -/
structure Divided (s : Snapshot) (w : Workflow) (settled : List (Nat × Connector))
    (m : MultiPlan) : Prop where
  settled_eq : settle (natives s w) = .ok settled
  branches_eq : m.branches.map AssignedBranch.branch = w.scans.map (wholeBranch s w)
  takes : ∀ a ∈ m.branches, Takes settled (Fragment.ofBranch a.branch) a.connector
  joins_eq : m.stages.map Stage.join = w.joins
  stageOf : ∀ n stage, m.stages[n]? = some stage → w.joins[n]? = some stage.join ∧
    StageOf w m.branches settled (m.stages.take n) stage.join stage
  root_mem_joins : ∀ root, w.IsRoot root → root ∈ w.joins

/-- A plan in branches is divided. -/
theorem divided_of_multi (config : PlannerConfig) (query : QueryId) (w : Workflow)
    (s : Snapshot) (m : MultiPlan) (hp : planSelect config query w s = .ok (.multi m)) :
    ∃ settled, Divided s w settled m := by
  rcases Workflow.exists_root w with ⟨root, hroot⟩
  rcases (planSelect_eq_ok config query w s root hroot _).mp hp with ⟨_, hplanned⟩
  cases hplanned with
  | split settled assigned stages hpart hsettled hassigned hstages _ =>
      rcases mergeStages_spec _ w assigned settled stages hstages with ⟨hjoins, hplaces⟩
      have hjoin := root_mem_joins_of_none s w root hroot hpart
      rcases assigned_takes settled _ assigned hassigned with ⟨hbranches, htakes⟩
      exact ⟨settled, hsettled, hbranches, htakes, hjoins, hplaces, fun other hother =>
        root_mem_joins w other hother (List.ne_nil_of_mem hjoin)⟩

section Divided

variable {s : Snapshot} {w : Workflow} {settled : List (Nat × Connector)} {m : MultiPlan}

-- The stage of a plan stands at the place of its join.
theorem Divided.stage_mem (h : Divided s w settled m) (stage : Stage) (hstage : stage ∈ m.stages) :
    stage.join ∈ w.joins ∧ stage.steps = w.stretch stage.join := by
  rcases List.mem_iff_getElem?.mp hstage with ⟨n, hn⟩
  rcases h.stageOf n stage hn with ⟨hjoin, hspec⟩
  exact ⟨List.mem_of_getElem? hjoin, hspec.steps_eq⟩

-- The branch of a plan is the stretch of its scan.
theorem Divided.branch_mem (h : Divided s w settled m) (a : AssignedBranch)
    (ha : a ∈ m.branches) :
    a.branch.initial ∈ w.scans ∧ a.branch = wholeBranch s w a.branch.initial := by
  rcases mem_assigned s w m.branches h.branches_eq a ha with ⟨t, ht, heq⟩
  have hinitial : a.branch.initial = t := by rw [heq]; rfl
  rw [hinitial]
  exact ⟨ht, heq⟩

end Divided

/-- Steps in the order of their links, from a first one up to the next join. -/
structure IsRun (w : Workflow) (first : Nat) (steps : List Nat) : Prop where
  head_eq : steps.head? = some first
  linked : steps.IsChain fun u v => w.next? u = some v
  no_join : ∀ v ∈ steps.tail, v ∉ w.joins
  maximal : ∃ last, steps.getLast? = some last ∧ ∀ v, w.next? last = some v → v ∈ w.joins

/-- A stretch is a run of steps from its start. -/
theorem stretch_isRun (w : Workflow) (id : Nat) (hid : id < w.size) :
    IsRun w id (w.stretch id) :=
  ⟨rfl, Workflow.stretch_linked w id hid, Workflow.segment_steps w id hid,
    w.stretchEnd id, Workflow.stretch_getLast? w id, Workflow.stretch_maximal w id hid⟩

/-- Every step is executed once: branches and stages are the runs of steps from the
    scans and from the joins, and together hold each step. -/
structure StepsOnce (w : Workflow) (m : MultiPlan) : Prop where
  steps_perm : (m.branches.flatMap (fun b => b.branch.steps) ++ m.stages.flatMap Stage.steps).Perm
    w.ids
  initials_eq : m.branches.map (fun b => b.branch.initial) = w.initialSteps
  joins_eq : m.stages.map Stage.join = w.joins
  joins_ascending : (m.stages.map Stage.join).Pairwise (· < ·)
  branches_length : m.branches.length = m.stages.length + 1
  branch_isRun : ∀ b ∈ m.branches, IsRun w b.branch.initial b.branch.steps ∧
    ∀ v ∈ b.branch.steps, v ∉ w.joins
  stage_isRun : ∀ stage ∈ m.stages, IsRun w stage.join stage.steps

-- Branches and stages hold the stretches of the scans and of the joins.
theorem Divided.steps_eq {s : Snapshot} {w : Workflow} {settled : List (Nat × Connector)}
    {m : MultiPlan} (h : Divided s w settled m) :
    m.branches.flatMap (fun b => b.branch.steps) ++ m.stages.flatMap Stage.steps
      = w.starts.flatMap w.stretch := by
  have hbranches : m.branches.flatMap (fun b => b.branch.steps) = w.scans.flatMap w.stretch := by
    have hmap := congrArg (List.flatMap Branch.steps) h.branches_eq
    rw [List.flatMap_map, List.flatMap_map] at hmap
    exact hmap
  have hstages : m.stages.flatMap Stage.steps = w.joins.flatMap w.stretch := by
    rw [← h.joins_eq, List.flatMap_map]
    exact List.flatMap_congr fun stage hstage => (h.stage_mem stage hstage).2
  rw [hbranches, hstages, Workflow.starts, List.flatMap_append]

/-- Every step of a workflow is executed once by a plan in branches. -/
theorem steps_once (config : PlannerConfig) (query : QueryId) (w : Workflow) (s : Snapshot)
    (m : MultiPlan) (hp : planSelect config query w s = .ok (.multi m)) : StepsOnce w m := by
  rcases divided_of_multi config query w s m hp with ⟨settled, h⟩
  have hinitials := assigned_initials s w m.branches h.branches_eq
  constructor
  case steps_perm =>
    rw [h.steps_eq]
    exact Workflow.stretches_perm w
  case initials_eq => exact hinitials
  case joins_eq => exact h.joins_eq
  case joins_ascending =>
    rw [h.joins_eq]
    exact joins_pairwise_lt w
  case branches_length =>
    have hscans := congrArg List.length hinitials
    have hjoins := congrArg List.length h.joins_eq
    rw [List.length_map] at hscans hjoins
    rw [hscans, hjoins]
    exact Workflow.scans_length w
  case branch_isRun =>
    intro b hb
    rcases h.branch_mem b hb with ⟨hscan, heq⟩
    have hlt := Graph.lt_of_mem_scans _ _ hscan
    rw [show b.branch.steps = w.stretch b.branch.initial from congrArg Branch.steps heq]
    refine ⟨stretch_isRun w _ hlt, fun v hv => ?_⟩
    -- The scan is no join, and what it drags along holds none.
    rcases List.mem_cons.mp hv with rfl | hv
    · exact Graph.not_mem_joins_of_mem_scans _ _ hscan
    · exact Workflow.segment_steps w _ hlt v hv
  case stage_isRun =>
    intro stage hstage
    rcases h.stage_mem stage hstage with ⟨hjoin, hsteps⟩
    rw [hsteps]
    exact stretch_isRun w _ (Graph.lt_of_mem_joins _ _ hjoin)

/-- Users and orders, joined, and the result joined with the items. -/
def nestedRead : Workflow where
  steps :=
    [.scan ⟨⟨"shop"⟩, "users"⟩ ⟨"east"⟩ [], .scan ⟨⟨"shop"⟩, "orders"⟩ ⟨"west"⟩ [],
      .scan ⟨⟨"shop"⟩, "items"⟩ ⟨"north"⟩ [],
      .join ⟨.boolean true, .eq, .boolean true⟩ Capability.joinVariants,
      .join ⟨.boolean true, .eq, .boolean true⟩ Capability.joinVariants]
  links := [⟨0, 3⟩, ⟨1, 3⟩, ⟨3, 4⟩, ⟨2, 4⟩]
  terminal := 4
  sound := (Graph.sound_iff_fault? _).mpr (by decide)
  sinks_eq := by decide

/-- A connector that scans, and joins with one capability. -/
def Connector.joining (name : ConnectorName) (join : Capability) : Connector :=
  ⟨name, .ofList [.scan, join], [], ⟨name.text⟩⟩

/-- Two clusters share a connector, and a third has one that takes partial results. -/
def sharedAndRemote : Snapshot where
  clusters := .ofList
    [(⟨"east"⟩, [.joining ⟨"local"⟩ .selectInnerJoin]),
      (⟨"west"⟩, [.joining ⟨"local"⟩ .selectInnerJoin]),
      (⟨"north"⟩, [.joining ⟨"remote"⟩ .selectInnerJoinPartialResults])]
  tables := ∅

/-- The shared connector joins what it read itself, and the other one the rest. -/
def nestedPlan : MultiPlan where
  query := ⟨"q"⟩
  branches :=
    [⟨wholeBranch sharedAndRemote nestedRead 0, .joining ⟨"local"⟩ .selectInnerJoin⟩,
      ⟨wholeBranch sharedAndRemote nestedRead 1, .joining ⟨"local"⟩ .selectInnerJoin⟩,
      ⟨wholeBranch sharedAndRemote nestedRead 2,
        .joining ⟨"remote"⟩ .selectInnerJoinPartialResults⟩]
  stages :=
    [⟨3, [3], [.branch 0, .branch 1], [⟨⟨"shop"⟩, "orders"⟩, ⟨⟨"shop"⟩, "users"⟩],
        .connector (.joining ⟨"local"⟩ .selectInnerJoin) .selectInnerJoin⟩,
      ⟨4, [4], [.branch 2, .stage 0],
        [⟨⟨"shop"⟩, "items"⟩, ⟨⟨"shop"⟩, "orders"⟩, ⟨⟨"shop"⟩, "users"⟩],
        .connector (.joining ⟨"remote"⟩ .selectInnerJoinPartialResults)
          .selectInnerJoinPartialResults⟩]
  workflow := nestedRead

/-- Three branches and two stages share the five steps of a nested join. -/
theorem nested_steps :
    planSelect .default ⟨"q"⟩ nestedRead sharedAndRemote = .ok (.multi nestedPlan) ∧
      [0, 1, 2, 3, 4].Perm nestedRead.ids ∧ nestedPlan.branches.length = 2 + 1 := by
  have hp : planSelect .default ⟨"q"⟩ nestedRead sharedAndRemote = .ok (.multi nestedPlan) := rfl
  have h := steps_once .default ⟨"q"⟩ nestedRead sharedAndRemote nestedPlan hp
  exact ⟨hp, h.steps_perm, h.branches_length⟩

end Federation
