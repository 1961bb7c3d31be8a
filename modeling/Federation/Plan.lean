import Federation.Connector
import Federation.Ascending
import Federation.Statement

/-!
# Plans

A plan says what is sent to which connector and how partial results are brought
together. It is complete in itself: it carries the connectors as they were known
and the workflow it was made from. A read runs on one connector as a whole, or in
branches that end at the first join, each on a connector of its own, with a stage
for every join. A write goes to one connector.

## Main definitions

* `Branch`: What several connectors could run from one scan on.
* `Stage`: A join with the steps after it, what feeds it, and who executes it.
* `Plan`: The three shapes.
* `Plan.units`: What is sent to whom, in order.
-/

namespace Federation

/-- A run of steps from a scan on that each of some connectors can execute. -/
structure Branch where
  table : TableName
  initial : Nat
  last : Nat
  /-- From `initial` to `last`. -/
  steps : List Nat
  /-- In order of discovery, which is no order of preference. -/
  connectors : List Connector
  /-- The join the branch feeds, or the first step that no connector can execute;
      none once the terminal is covered. -/
  next : Option Nat
deriving DecidableEq

namespace Branch

/-- Whether the branch covers everything after its scan. -/
def reachesTerminal (b : Branch) : Bool := b.next.isNone

/-- The names of the connectors that could run the branch. -/
def connectorNames (b : Branch) : List ConnectorName := b.connectors.map Connector.name

end Branch

/-- A branch and the connector that executes it. -/
structure AssignedBranch where
  branch : Branch
  connector : Connector
deriving DecidableEq

/-- Where the rows of a join come from. -/
inductive StageInput where
  /-- The result of a branch, by its place among the branches. -/
  | branch (index : Nat)
  /-- The result of an earlier stage, by its place among the stages. -/
  | stage (index : Nat)
deriving DecidableEq

/-- How an input is written. -/
def StageInput.text : StageInput → String
  | .branch index => "path " ++ toString index
  | .stage index => "stage " ++ toString index

/-- Who executes a stage. -/
inductive StageExecutor where
  /-- A connector, with the capability it uses for the join. -/
  | connector (connector : Connector) (join : Capability)
  /-- Whoever dispatches the plan. -/
  | coordinator
deriving DecidableEq

namespace StageExecutor

/-- The connector that executes a stage. -/
def connector? : StageExecutor → Option Connector
  | .connector c _ => some c
  | .coordinator => none

/-- How an executor is written. -/
def text : StageExecutor → String
  | .connector c join => c.text ++ " [" ++ join.tag ++ "]"
  | .coordinator => "COORDINATOR"

end StageExecutor

/-- A join with the steps after it, up to the next join or the terminal. -/
structure Stage where
  join : Nat
  /-- The join first. -/
  steps : List Nat
  inputs : List StageInput
  /-- The tables whose rows take part, in ascending order. -/
  tables : List TableName
  executor : StageExecutor
deriving DecidableEq

/-- A read that one connector executes as a whole. -/
structure SinglePlan where
  query : QueryId
  connector : Connector
  initialSteps : List Nat
  terminal : Nat
  steps : List Nat
  workflow : Workflow

/-- A read in branches and stages. Earlier stages feed later ones, and the last
    stage gives the result. -/
structure MultiPlan where
  query : QueryId
  branches : List AssignedBranch
  stages : List Stage
  workflow : Workflow

/-- A write. -/
structure StoragePlan where
  query : QueryId
  cluster : ClusterName
  table : TableName
  connector : Connector
  operation : Capability
  assignments : List Assignment

/-- What is to be done for a statement. -/
inductive Plan where
  | single (plan : SinglePlan)
  | multi (plan : MultiPlan)
  | storage (plan : StoragePlan)

/-- What is sent to one connector. -/
structure DispatchUnit where
  connector : ConnectorName
  handle : Handle
  steps : List Nat
deriving DecidableEq

/-- Some steps, sent to a connector. -/
def Connector.unit (c : Connector) (steps : List Nat) : DispatchUnit := ⟨c.name, c.handle, steps⟩

namespace Plan

/-- The query a plan was made for. -/
def query : Plan → QueryId
  | .single p => p.query
  | .multi p => p.query
  | .storage p => p.query

/-- The name of a shape. -/
def kind : Plan → String
  | .single _ => "single"
  | .multi _ => "multi"
  | .storage _ => "storage"

/-- What is sent to whom, in order. A stage without a connector is sent to
    nobody, and a write has no steps. -/
def units : Plan → List DispatchUnit
  | .single p => [p.connector.unit p.steps]
  | .multi p =>
    p.branches.map (fun b => b.connector.unit b.branch.steps)
      ++ p.stages.filterMap fun s => s.executor.connector?.map fun c => c.unit s.steps
  | .storage p => [p.connector.unit []]

/-- The connectors that take part, each once, in ascending order. -/
def connectorNames (p : Plan) : List ConnectorName :=
  ascending (p.units.map DispatchUnit.connector)

/-- The lines of some steps. A step that the workflow lacks has a question mark. -/
def stepLines (indent : String) (w : Workflow) (steps : List Nat) : String :=
  String.join (steps.map fun id =>
    indent ++ stepLabel id ++ " " ++ ((w.step? id).map Step.text).getD "?" ++ "\n")

/-- The explanation of a plan, for a reader. -/
def text : Plan → String
  | .single p =>
    "SINGLE query=" ++ p.query.text ++ " connector=" ++ p.connector.text ++ "\n"
      ++ stepLines "  " p.workflow p.steps
  | .multi p =>
    "MULTI query=" ++ p.query.text ++ "\n"
      ++ String.join (p.branches.zipIdx.map fun (b, index) =>
        "  PATH " ++ toString index ++ " " ++ b.branch.table.text
          ++ " connector=" ++ b.connector.text ++ "\n"
          ++ stepLines "    " p.workflow b.branch.steps)
      ++ String.join (p.stages.zipIdx.map fun (s, index) =>
        "  STAGE " ++ toString index ++ " <- [" ++ commaList StageInput.text s.inputs
          ++ "] executor=" ++ s.executor.text ++ "\n"
          ++ stepLines "    " p.workflow s.steps)
  | .storage p =>
    "STORAGE query=" ++ p.query.text ++ " " ++ p.operation.tag ++ " INTO " ++ p.table.text
      ++ " ON " ++ p.cluster.text ++ " connector=" ++ p.connector.text ++ "\n"
      ++ String.join (p.assignments.map fun a =>
        "  " ++ a.column.name ++ " = " ++ a.value.text ++ "\n")

end Plan

end Federation
