import Federation.Wire.Selector
import Federation.Workflow

/-!
# Written Workflows

A workflow is written as its steps, its links in the order in which they were
made, its scans and its terminal. The form leaves room for graphs that are no
workflows, with holes among the steps or without directions, but none of that is
accepted; a link to a step that is not there is bad writing. What is written well
is then examined as a graph, so whatever is read back is a sound workflow.
-/

namespace Federation

namespace OutputColumn

/-- A record of the column, its label and its type. -/
def toJson (c : OutputColumn) : Json :=
  .object [("source", c.column.toJson), ("alias", .string c.label), ("column_type", c.type.toJson)]

/-- The output column of a record. -/
def ofJson : Decoder OutputColumn := fun j => do
  match ← Decoder.record ["source", "alias", "column_type"] j with
  | [column, label, type] =>
    return ⟨← Decoder.required ColumnName.ofJson column, ← Decoder.required Decoder.string label,
      ← Decoder.required ColumnType.ofJson type⟩
  | _ => .error .malformed

end OutputColumn

namespace Window

/-- The unit of a window with the count of it. -/
def toJson : Window → Json
  | .rows count => .case "Rows" (.nat count.toNat)
  | .seconds count => .case "Seconds" (.nat count.toNat)

/-- The window of a unit and a count that fits it. -/
def ofJson : Decoder Window := fun j => do
  match ← Decoder.variant j with
  | ("Rows", some content) => return .rows (.ofNat (← Decoder.natBelow UInt32.size content))
  | ("Seconds", some content) => return .seconds (.ofNat (← Decoder.natBelow UInt64.size content))
  | _ => .error .malformed

end Window

namespace Step

/-- The kind of a step with a record of what belongs to the kind. -/
def toJson : Step → Json
  | .scan table cluster columns =>
    .case "Scan" (.object [("table", table.toJson), ("cluster", cluster.toJson),
      ("columns", .list ColumnName.toJson columns)])
  | .filter relation operation =>
    .case "Filter" (.object [("relation", relation.toJson), ("operation", operation.toJson)])
  | .projection columns window =>
    .case "Projection" (.object [("columns", .list OutputColumn.toJson columns),
      ("window", .option Window.toJson window)])
  | .join relation alternatives =>
    .case "Join" (.object [("relation", relation.toJson),
      ("alternatives", .list Capability.toJson alternatives)])

/-- A scan, from its record. -/
def scanOfJson : Decoder Step := fun j => do
  match ← Decoder.fields ["table", "cluster", "columns"] j with
  | [table, cluster, columns] =>
    return .scan (← Decoder.required TableName.ofJson table)
      (← Decoder.required Name.ofJson cluster)
      (← Decoder.required (.list ColumnName.ofJson) columns)
  | _ => .error .malformed

/-- A filter, from its record. -/
def filterOfJson : Decoder Step := fun j => do
  match ← Decoder.fields ["relation", "operation"] j with
  | [relation, operation] =>
    return .filter (← Decoder.required Relation.ofJson relation)
      (← Decoder.required Capability.ofJson operation)
  | _ => .error .malformed

/-- A projection, from its record. Without a window there need be no mention of it. -/
def projectionOfJson : Decoder Step := fun j => do
  match ← Decoder.fields ["columns", "window"] j with
  | [columns, window] =>
    return .projection (← Decoder.required (.list OutputColumn.ofJson) columns)
      (← Decoder.optional Window.ofJson window)
  | _ => .error .malformed

/-- A join, from its record. -/
def joinOfJson : Decoder Step := fun j => do
  match ← Decoder.fields ["relation", "alternatives"] j with
  | [relation, alternatives] =>
    return .join (← Decoder.required Relation.ofJson relation)
      (← Decoder.required (.list Capability.ofJson) alternatives)
  | _ => .error .malformed

/-- The step of a kind and a record. -/
def ofJson : Decoder Step := fun j => do
  match ← Decoder.variant j with
  | ("Scan", some content) => scanOfJson content
  | ("Filter", some content) => filterOfJson content
  | ("Projection", some content) => projectionOfJson content
  | ("Join", some content) => joinOfJson content
  | _ => .error .malformed

end Step

namespace Link

/-- A link has no weight, but the form has a place for one. -/
def toJson (l : Link) : Json := .array [.nat l.source, .nat l.target, .null]

/-- A link, from the two steps and the empty place. -/
def ofJson : Decoder Link
  | .array [source, target, weight] => do
    let source ← Decoder.stepNumber source
    let target ← Decoder.stepNumber target
    let _ ← Decoder.null weight
    return ⟨source, target⟩
  | _ => .error .malformed

end Link

namespace Graph

/-- A record of the steps and the links. A graph here has directions and no holes. -/
def toJson (g : Graph) : Json :=
  .object [("nodes", .list Step.toJson g.steps), ("node_holes", .array []),
    ("edge_property", .string "directed"), ("edges", .list Link.toJson g.links)]

/-- Links must have directions. -/
def directedOfJson : Decoder Unit := Decoder.enumeration [()] fun _ => "directed"

/-- There must be no holes among the steps. -/
def noHoles : Decoder Unit
  | .array [] => .ok ()
  | _ => .error .malformed

/-- The graph of a record, all of whose links lie within it. -/
def ofJson : Decoder Graph := fun j => do
  match ← Decoder.record ["nodes", "node_holes", "edge_property", "edges"] j with
  | [nodes, holes, property, edges] =>
    let steps ← Decoder.required (.list Step.ofJson) nodes
    let _ ← Decoder.ifPresent noHoles holes
    let _ ← Decoder.required directedOfJson property
    let links ← Decoder.required (.list Link.ofJson) edges
    if steps.length ≤ capacity
        ∧ links.all fun l => decide (l.source < steps.length ∧ l.target < steps.length) then
      return ⟨steps, links⟩
    else
      .error .malformed
  | _ => .error .malformed

end Graph

namespace Workflow

/-- A record of the graph, its scans and its terminal. -/
def toJson (w : Workflow) : Json :=
  .object [("graph", w.toGraph.toJson), ("initial_steps", .list .nat w.initialSteps),
    ("terminal", .nat w.terminal)]

/-- The workflow of a record, if the graph is sound and its ends are as declared. -/
def ofJson : Decoder Workflow := fun j => do
  match ← Decoder.record ["graph", "initial_steps", "terminal"] j with
  | [graph, initial, terminal] =>
    let graph ← Decoder.required Graph.ofJson graph
    let initial ← Decoder.required (.list Decoder.stepNumber) initial
    let terminal ← Decoder.required Decoder.stepNumber terminal
    (ofGraph graph initial terminal).mapError .invalid
  | _ => .error .malformed

end Workflow

end Federation
