import Federation.Plan
import Federation.Wire.Registry
import Federation.Wire.Statement

/-!
# Written Plans

A plan is written with everything it carries, so whoever dispatches it needs
nothing else. The workflow inside is examined again when a plan is read.
-/

namespace Federation

namespace Branch

/-- A record of the branch, with null in place of a join it does not feed. -/
def toJson (b : Branch) : Json :=
  .object [("table", b.table.toJson), ("initial", .nat b.initial), ("last", .nat b.last),
    ("steps", .list .nat b.steps), ("connectors", .list Connector.toJson b.connectors),
    ("next", .option .nat b.next)]

/-- The branch of a record. -/
def ofJson : Decoder Branch := fun j => do
  match ← Decoder.record ["table", "initial", "last", "steps", "connectors", "next"] j with
  | [table, initial, last, steps, connectors, next] =>
    return ⟨← Decoder.required TableName.ofJson table,
      ← Decoder.required Decoder.stepNumber initial,
      ← Decoder.required Decoder.stepNumber last,
      ← Decoder.required (.list Decoder.stepNumber) steps,
      ← Decoder.required (.list Connector.ofJson) connectors,
      ← Decoder.optional Decoder.stepNumber next⟩
  | _ => .error .malformed

end Branch

namespace AssignedBranch

/-- A record of the branch and its connector. -/
def toJson (b : AssignedBranch) : Json :=
  .object [("path", b.branch.toJson), ("connector", b.connector.toJson)]

/-- The assigned branch of a record. -/
def ofJson : Decoder AssignedBranch := fun j => do
  match ← Decoder.record ["path", "connector"] j with
  | [branch, connector] =>
    return ⟨← Decoder.required Branch.ofJson branch, ← Decoder.required Connector.ofJson connector⟩
  | _ => .error .malformed

end AssignedBranch

namespace StageInput

/-- Where the rows come from, by place. -/
def toJson : StageInput → Json
  | .branch index => .case "Path" (.nat index)
  | .stage index => .case "Stage" (.nat index)

/-- The input of a place. -/
def ofJson : Decoder StageInput := fun j => do
  match ← Decoder.variant j with
  | ("Path", some content) => return .branch (← Decoder.count content)
  | ("Stage", some content) => return .stage (← Decoder.count content)
  | _ => .error .malformed

end StageInput

namespace StageExecutor

/-- The connector with its capability, or the name of the coordinator. -/
def toJson : StageExecutor → Json
  | .connector c join =>
    .case "Connector" (.object [("connector", c.toJson), ("join", join.toJson)])
  | .coordinator => .string "Coordinator"

/-- A connector with its capability, from their record. -/
def connectorOfJson : Decoder StageExecutor := fun j => do
  match ← Decoder.fields ["connector", "join"] j with
  | [c, join] =>
    return .connector (← Decoder.required Connector.ofJson c)
      (← Decoder.required Capability.ofJson join)
  | _ => .error .malformed

/-- The executor of a case. -/
def ofJson : Decoder StageExecutor := fun j => do
  match ← Decoder.variant j with
  | ("Connector", some content) => connectorOfJson content
  | ("Coordinator", none) | ("Coordinator", some .null) => return .coordinator
  | _ => .error .malformed

end StageExecutor

namespace Stage

/-- A record of the stage. -/
def toJson (s : Stage) : Json :=
  .object [("join", .nat s.join), ("steps", .list .nat s.steps),
    ("inputs", .list StageInput.toJson s.inputs), ("tables", .list TableName.toJson s.tables),
    ("executor", s.executor.toJson)]

/-- The stage of a record. -/
def ofJson : Decoder Stage := fun j => do
  match ← Decoder.record ["join", "steps", "inputs", "tables", "executor"] j with
  | [join, steps, inputs, tables, executor] =>
    return ⟨← Decoder.required Decoder.stepNumber join,
      ← Decoder.required (.list Decoder.stepNumber) steps,
      ← Decoder.required (.list StageInput.ofJson) inputs,
      ← Decoder.required (.list TableName.ofJson) tables,
      ← Decoder.required StageExecutor.ofJson executor⟩
  | _ => .error .malformed

end Stage

namespace Assignment

/-- A record of the column and the value. -/
def toJson (a : Assignment) : Json :=
  .object [("column", a.column.toJson), ("value", a.value.toJson)]

/-- The assignment of a record. -/
def ofJson : Decoder Assignment := fun j => do
  match ← Decoder.record ["column", "value"] j with
  | [column, value] =>
    return ⟨← Decoder.required ColumnName.ofJson column, ← Decoder.required Selector.ofJson value⟩
  | _ => .error .malformed

end Assignment

namespace SinglePlan

/-- A record of the plan with its workflow. -/
def toJson (p : SinglePlan) : Json :=
  .object [("query_id", p.query.toJson), ("connector", p.connector.toJson),
    ("initial_steps", .list .nat p.initialSteps), ("terminal", .nat p.terminal),
    ("steps", .list .nat p.steps), ("logical", p.workflow.toJson)]

/-- A read on one connector, by place. The workflow is read last. -/
def ofItems : List Json → Except DecodeError SinglePlan
  | query :: connector :: initial :: terminal :: steps :: workflow :: surplus => do
    let query ← Name.ofJson query
    let connector ← Connector.ofJson connector
    let initial ← Decoder.list Decoder.stepNumber initial
    let terminal ← Decoder.stepNumber terminal
    let steps ← Decoder.list Decoder.stepNumber steps
    let workflow ← Workflow.ofJson workflow
    Decoder.noMore surplus
    return ⟨query, connector, initial, terminal, steps, workflow⟩
  | _ => .error .malformed

/-- A read on one connector, by name. What is named before the workflow is read
    before it. -/
def ofMembers : Decoder SinglePlan := fun j => do
  match ← Decoder.fields
      ["query_id", "connector", "initial_steps", "terminal", "steps", "logical"] j with
  | [query, connector, initial, terminal, steps, workflow] =>
    let connector ← Decoder.ifPresent Connector.ofJson connector
    let initial ← Decoder.ifPresent (.list Decoder.stepNumber) initial
    let workflow ← Decoder.ifPresent Workflow.ofJson workflow
    let query ← Decoder.ifPresent Name.ofJson query
    let steps ← Decoder.ifPresent (.list Decoder.stepNumber) steps
    let terminal ← Decoder.ifPresent Decoder.stepNumber terminal
    return ⟨← Decoder.needed query, ← Decoder.needed connector, ← Decoder.needed initial,
      ← Decoder.needed terminal, ← Decoder.needed steps, ← Decoder.needed workflow⟩
  | _ => .error .malformed

/-- The read on one connector of a record. -/
def ofJson : Decoder SinglePlan
  | .array items => ofItems items
  | j => ofMembers j

end SinglePlan

namespace MultiPlan

/-- A record of the plan with its workflow. -/
def toJson (p : MultiPlan) : Json :=
  .object [("query_id", p.query.toJson), ("paths", .list AssignedBranch.toJson p.branches),
    ("stages", .list Stage.toJson p.stages), ("logical", p.workflow.toJson)]

/-- A read in branches, by place. The workflow is read last. -/
def ofItems : List Json → Except DecodeError MultiPlan
  | query :: branches :: stages :: workflow :: surplus => do
    let query ← Name.ofJson query
    let branches ← Decoder.list AssignedBranch.ofJson branches
    let stages ← Decoder.list Stage.ofJson stages
    let workflow ← Workflow.ofJson workflow
    Decoder.noMore surplus
    return ⟨query, branches, stages, workflow⟩
  | _ => .error .malformed

/-- A read in branches, by name. The workflow is read first. -/
def ofMembers : Decoder MultiPlan := fun j => do
  match ← Decoder.fields ["query_id", "paths", "stages", "logical"] j with
  | [query, branches, stages, workflow] =>
    let workflow ← Decoder.ifPresent Workflow.ofJson workflow
    let branches ← Decoder.ifPresent (.list AssignedBranch.ofJson) branches
    let query ← Decoder.ifPresent Name.ofJson query
    let stages ← Decoder.ifPresent (.list Stage.ofJson) stages
    return ⟨← Decoder.needed query, ← Decoder.needed branches, ← Decoder.needed stages,
      ← Decoder.needed workflow⟩
  | _ => .error .malformed

/-- The read in branches of a record. -/
def ofJson : Decoder MultiPlan
  | .array items => ofItems items
  | j => ofMembers j

end MultiPlan

namespace StoragePlan

/-- A record of the plan. -/
def toJson (p : StoragePlan) : Json :=
  .object [("query_id", p.query.toJson), ("cluster", p.cluster.toJson),
    ("table", p.table.toJson), ("connector", p.connector.toJson),
    ("operation", p.operation.toJson), ("assignments", .list Assignment.toJson p.assignments)]

/-- The write of a record. -/
def ofJson : Decoder StoragePlan := fun j => do
  match ← Decoder.record
      ["query_id", "cluster", "table", "connector", "operation", "assignments"] j with
  | [query, cluster, table, connector, operation, assignments] =>
    return ⟨← Decoder.required Name.ofJson query, ← Decoder.required Name.ofJson cluster,
      ← Decoder.required TableName.ofJson table, ← Decoder.required Connector.ofJson connector,
      ← Decoder.required Capability.ofJson operation,
      ← Decoder.required (.list Assignment.ofJson) assignments⟩
  | _ => .error .malformed

end StoragePlan

namespace Plan

/-- The shape of a plan with its record. -/
def toJson : Plan → Json
  | .single p => .case "Single" p.toJson
  | .multi p => .case "Multi" p.toJson
  | .storage p => .case "Storage" p.toJson

/-- The plan of a shape and a record. -/
def ofJson : Decoder Plan := fun j => do
  match ← Decoder.variant j with
  | ("Single", some content) => return .single (← SinglePlan.ofJson content)
  | ("Multi", some content) => return .multi (← MultiPlan.ofJson content)
  | ("Storage", some content) => return .storage (← StoragePlan.ofJson content)
  | _ => .error .malformed

end Plan

/-- A unit of dispatch, written. -/
def DispatchUnit.toJson (u : DispatchUnit) : Json :=
  .object [("connector", u.connector.toJson), ("handle", u.handle.toJson),
    ("steps", .list .nat u.steps)]

end Federation
