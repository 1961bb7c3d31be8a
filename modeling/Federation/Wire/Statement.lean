import Federation.Planner.Config
import Federation.PlanningError
import Federation.Statement
import Federation.Wire.Workflow

/-!
# Written Statements

Statements, the settings of a planner and the phases of planning. An insertion is
read as it is written, even if its columns and values do not pair up; planning it
will say so.
-/

namespace Federation

namespace Insertion

/-- A record of the table, the columns, the values and the condition. -/
def toJson (i : Insertion) : Json :=
  .object [("table", i.table.toJson), ("columns", .list ColumnName.toJson i.columns),
    ("values", .list Selector.toJson i.values), ("if_not_exists", .bool i.ifNotExists)]

/-- The insertion of a record, whether columns and values pair up or not. -/
def ofJson : Decoder Insertion := fun j => do
  match ← Decoder.record ["table", "columns", "values", "if_not_exists"] j with
  | [table, columns, values, ifNotExists] =>
    return ⟨← Decoder.required TableName.ofJson table,
      ← Decoder.required (.list ColumnName.ofJson) columns,
      ← Decoder.required (.list Selector.ofJson) values,
      ← Decoder.required Decoder.bool ifNotExists⟩
  | _ => .error .malformed

end Insertion

namespace Command

/-- The name of a command, with what it is about. -/
def toJson : Command → Json
  | .listConnectors => .string "ListConnectors"
  | .listClusters => .string "ListClusters"
  | .describeTable table => .case "DescribeTable" table.toJson
  | .createCatalog catalog => .case "CreateCatalog" catalog.toJson
  | .dropCatalog catalog => .case "DropCatalog" catalog.toJson

/-- The command of a name. -/
def ofJson : Decoder Command := fun j => do
  match ← Decoder.variant j with
  | ("ListConnectors", none) | ("ListConnectors", some .null) => return .listConnectors
  | ("ListClusters", none) | ("ListClusters", some .null) => return .listClusters
  | ("DescribeTable", some content) => return .describeTable (← TableName.ofJson content)
  | ("CreateCatalog", some content) => return .createCatalog (← Name.ofJson content)
  | ("DropCatalog", some content) => return .dropCatalog (← Name.ofJson content)
  | _ => .error .malformed

end Command

/-- What a statement asks for, from its case and content. -/
def StatementBody.ofJson : Decoder StatementBody := fun j => do
  match ← Decoder.variant j with
  | ("Select", some content) => return .select (← Workflow.ofJson content)
  | ("Insert", some content) => return .insert (← Insertion.ofJson content)
  | ("Command", some content) => return .command (← Command.ofJson content)
  | _ => .error .malformed

namespace Statement

/-- A statement, by place. The body is read last. -/
def ofItems : List Json → Except DecodeError Statement
  | query :: catalog :: body :: surplus => do
    let query ← Name.ofJson query
    let catalog ← Name.ofJson catalog
    let body ← StatementBody.ofJson body
    Decoder.noMore surplus
    return ⟨query, catalog, body⟩
  | _ => .error .malformed

/-- A statement, by name. The body is read before the query is. -/
def ofMembers : Decoder Statement := fun j => do
  match ← Decoder.fields ["query_id", "catalog", "kind"] j with
  | [query, catalog, body] =>
    let catalog ← Decoder.ifPresent Name.ofJson catalog
    let body ← Decoder.ifPresent StatementBody.ofJson body
    let query ← Decoder.ifPresent Name.ofJson query
    return ⟨← Decoder.needed query, ← Decoder.needed catalog, ← Decoder.needed body⟩
  | _ => .error .malformed

/-- The statement of a record. -/
def ofJson : Decoder Statement
  | .array items => ofItems items
  | j => ofMembers j

end Statement

namespace MergeFallback

/-- Every fallback. -/
def all : List MergeFallback := [.coordinator, .reject]

/-- The name of a fallback in written values. -/
def label : MergeFallback → String
  | .coordinator => "Coordinator"
  | .reject => "Reject"

/-- The name of a fallback. -/
def toJson (f : MergeFallback) : Json := .string f.label

/-- The fallback of a name. -/
def ofJson : Decoder MergeFallback := Decoder.enumeration all label

end MergeFallback

namespace PlannerConfig

/-- A record of the two settings. -/
def toJson (c : PlannerConfig) : Json :=
  .object [("merge_fallback", c.fallback.toJson), ("max_join_stages", .nat c.maxStages)]

/-- The settings of a record. None of them has a default here. -/
def ofJson : Decoder PlannerConfig := fun j => do
  match ← Decoder.record ["merge_fallback", "max_join_stages"] j with
  | [fallback, maxStages] =>
    return ⟨← Decoder.required MergeFallback.ofJson fallback,
      ← Decoder.required Decoder.count maxStages⟩
  | _ => .error .malformed

end PlannerConfig

namespace Phase

/-- Every phase, in order. -/
def all : List Phase := [.unplanned, .pathsBuilt, .connectorsChosen, .workflowAssembled]

/-- The name of a phase in written values. -/
def label : Phase → String
  | .unplanned => "Unplanned"
  | .pathsBuilt => "PathsBuilt"
  | .connectorsChosen => "ConnectorsChosen"
  | .workflowAssembled => "WorkflowAssembled"

/-- The name of a phase. -/
def toJson (p : Phase) : Json := .string p.label

/-- The phase of a name. -/
def ofJson : Decoder Phase := Decoder.enumeration all label

end Phase

end Federation
