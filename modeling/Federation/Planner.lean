import Federation.Planner.Stages

/-!
# The Planner

From a statement and a registry to a plan. A read is planned against a snapshot
of the clusters it scans: as a whole on one connector if one can execute all of
it, else in branches with a stage for every join. A write is planned against a
snapshot of its table and goes to a connector of the table's cluster. Planning is
a function of the statement, the settings and the answers of the registry.

## Main definitions

* `planSelect`: The plan of a read against a snapshot.
* `planInsert`: The plan of a write against a snapshot.
* `plan`: The plan of a statement, with the questions asked on the way.
-/

namespace Federation

/-- A result whose failure is a failure of a planning run in some phase. -/
def during {α : Type} (query : QueryId) (phase : Phase) (result : Except PlanningCause α) :
    Except PlanningError α :=
  result.mapError fun cause => ⟨query, phase, cause⟩

/-- The plan of a read as a whole. -/
def wholePlan (query : QueryId) (w : Workflow) (fragment : Fragment) :
    Except PlanningCause Plan := do
  let connector ← choose fragment.candidates
  return .single ⟨query, connector, w.initialSteps, w.terminal, w.ids, w⟩

/-- The branches and stages of a read that is not planned as a whole. -/
def splitPlan (fallback : MergeFallback) (query : QueryId) (w : Workflow)
    (branches : List Branch) (native : List (Nat × Fragment)) :
    Except PlanningCause MultiPlan := do
  let settled ← settle native
  let assigned ← branches.mapM (assign settled)
  let stages ← mergeStages fallback w assigned settled
  return ⟨query, assigned, stages, w⟩

/-- Refuses a plan with too many stages. -/
def limitStages (config : PlannerConfig) (p : MultiPlan) : Except PlanningCause Plan :=
  if config.maxStages < p.stages.length then
    .error (.unsupportedStatement
      ("workflow with " ++ toString p.stages.length ++ " merge stages (at most "
        ++ toString config.maxStages ++ " allowed)"))
  else
    .ok (.multi p)

/-- The plan of a read against a snapshot. -/
def planSelect (config : PlannerConfig) (query : QueryId) (w : Workflow) (s : Snapshot) :
    Except PlanningError Plan := do
  let branches ← during query .unplanned (branchesOf s w)
  let native := nativeFragments w branches
  match wholeFragment? w branches native with
  | some fragment => during query .pathsBuilt (wholePlan query w fragment)
  | none =>
    let split ← during query .pathsBuilt (splitPlan config.fallback query w branches native)
    during query .connectorsChosen (limitStages config split)

/-- The connectors of a table's cluster that can execute an insertion, with the
    cluster. -/
def writers (i : Insertion) (s : Snapshot) :
    Except PlanningCause (ClusterName × List Connector) := do
  let some cluster := s.clusterOf i.table | throw (.unknownTable i.table)
  match (s.connectorsOf cluster).filter fun c => c.supports i.required with
  | [] => throw (.noWritableConnector i.table cluster i.required)
  | c :: others => return (cluster, c :: others)

/-- The plan of a write against a snapshot. -/
def planInsert (query : QueryId) (i : Insertion) (s : Snapshot) : Except PlanningError Plan := do
  let (cluster, connectors) ← during query .unplanned (writers i s)
  let connector ← during query .pathsBuilt (chooseFor i.table connectors)
  return .storage ⟨query, cluster, i.table, connector, i.required, i.assignments⟩

/-- Plans against the snapshot of some clusters and tables. -/
def planAgainst (r : Registry) (query : QueryId) (clusters : List ClusterName)
    (tables : List TableName) (plan : Snapshot → Except PlanningError Plan) :
    Asked (Except PlanningError Plan) := do
  let captured ← Snapshot.capture r clusters tables
  return during query .unplanned captured >>= plan

/-- The plan of a statement. A malformed insertion and a command are refused
    before the registry is asked anything. -/
def plan (r : Registry) (config : PlannerConfig) (s : Statement) :
    Asked (Except PlanningError Plan) :=
  match s.body with
  | .select w => planAgainst r s.query w.clusters [] (planSelect config s.query w)
  | .insert i =>
    match i.fault? with
    | some fault => pure (.error ⟨s.query, .unplanned, .malformedStatement fault⟩)
    | none => planAgainst r s.query [] [i.table] (planInsert s.query i)
  | .command c => pure (.error ⟨s.query, .unplanned, .unsupportedStatement c.text⟩)

end Federation
