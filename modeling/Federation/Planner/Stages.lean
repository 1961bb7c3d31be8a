import Federation.Planner.Config
import Federation.Planner.Native

/-!
# Merge Stages

Every join of a plan in branches becomes a stage. A native join is executed by
its settled connector. Any other join is merged by a connector that executed one
of its inputs, provided that it accepts partial results from elsewhere and can
execute the steps after the join; of several, the one that executed most steps of
the inputs, then the one with the smallest name. Where there is none the stage
falls to whoever dispatches the plan, if that is allowed.

## Main definitions

* `Feed`: What arrives at a join.
* `mergeExecutor?`: The connector that merges a join that is not native.
* `mergeStages`: The stages of a plan, in ascending order of their joins.
-/

namespace Federation

/-- What arrives at a join: an input with its tables, who executed it and in how
    many steps. -/
structure Feed where
  input : StageInput
  tables : List TableName
  executor : Option Connector
  weight : Nat
deriving DecidableEq

/-- The join that the stage of a join feeds. -/
def Workflow.downstream (w : Workflow) (join : Nat) : Option Nat :=
  (w.segment (w.next? join)).join?

/-- What arrives at a join: branches first, then earlier stages. -/
def feedsOf (w : Workflow) (branches : List AssignedBranch) (stages : List Stage) (join : Nat) :
    List Feed :=
  (branches.zipIdx.filterMap fun (b, index) =>
    if b.branch.next = some join then
      some ⟨.branch index, [b.branch.table], some b.connector, b.branch.steps.length⟩
    else
      none)
  ++ stages.zipIdx.filterMap fun (s, index) =>
    if w.downstream s.join = some join then
      some ⟨.stage index, s.tables, s.executor.connector?, s.steps.length⟩
    else
      none

/-- How many steps of feeds the connector of a name executed. -/
def weightOf (name : ConnectorName) : List Feed → Nat
  | [] => 0
  | f :: rest =>
    if f.executor.any fun c => c.name == name then f.weight + weightOf name rest
    else weightOf name rest

/-- The connectors that executed feeds, each once and in ascending order of names,
    with the number of steps they executed. -/
def tally (feeds : List Feed) : List (Connector × Nat) :=
  let executors := feeds.filterMap Feed.executor
  let names := ascending (executors.map Connector.name)
  names.filterMap fun name =>
    (executors.find? fun c => c.name == name).map fun c => (c, weightOf name feeds)

/-- The heaviest entry, the first of several. -/
def heaviest : List (Connector × Nat) → Option (Connector × Nat)
  | [] => none
  | entry :: rest =>
    match heaviest rest with
    | some best => if entry.2 < best.2 then some best else some entry
    | none => some entry

/-- The connector that merges a join which is not native, with given steps after
    it. -/
def mergeExecutor? (w : Workflow) (join : Nat) (after : List Nat) (feeds : List Feed) :
    Option Connector :=
  let accepted := ((w.step? join).map Step.alternatives).getD []
  if accepted.contains .selectInnerJoinPartialResults then
    let fit (c : Connector) : Bool :=
      c.supports .selectInnerJoinPartialResults
        && after.all fun id => (w.step? id).any c.canRun
    (heaviest ((tally feeds).filter fun entry => fit entry.1)).map (·.1)
  else
    none

/-- Who executes a join natively, and with which capability. -/
def nativeExecutor? (w : Workflow) (settled : List (Nat × Connector)) (join : Nat) :
    Option StageExecutor := do
  let c ← settled.lookup join
  let step ← w.step? join
  let capability ← c.capabilityFor? step
  return .connector c capability

/-- The stage of a join, given the stages of the joins before it. -/
def stageAt (fallback : MergeFallback) (w : Workflow) (branches : List AssignedBranch)
    (settled : List (Nat × Connector)) (stages : List Stage) (join : Nat) :
    Except PlanningCause Stage :=
  let feeds := feedsOf w branches stages join
  let after := (w.segment (w.next? join)).steps
  let tables := ascending (feeds.flatMap Feed.tables)
  let stage (executor : StageExecutor) : Stage :=
    ⟨join, join :: after, feeds.map Feed.input, tables, executor⟩
  match nativeExecutor? w settled join with
  | some executor => .ok (stage executor)
  | none =>
    match mergeExecutor? w join after feeds with
    | some c => .ok (stage (.connector c .selectInnerJoinPartialResults))
    | none =>
      match fallback with
      | .coordinator => .ok (stage .coordinator)
      | .reject => .error (.noCommonConnector tables (some join))

/-- The stages of a plan in branches, in ascending order of their joins. -/
def mergeStages (fallback : MergeFallback) (w : Workflow) (branches : List AssignedBranch)
    (settled : List (Nat × Connector)) : Except PlanningCause (List Stage) :=
  w.joins.foldlM
    (fun stages join => do return stages ++ [← stageAt fallback w branches settled stages join])
    []

end Federation
