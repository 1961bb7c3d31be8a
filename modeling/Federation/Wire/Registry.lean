import Federation.Registry.Snapshot
import Federation.Wire.Capability
import Federation.Wire.Name

/-!
# Written Registries

Connectors and snapshots. Clusters are named by text and so can be the members of
an object; tables have qualified names and cannot, so they are written as pairs,
in ascending order. Pairs are read in any order, and of two with one table the
later counts.
-/

namespace Federation

namespace Connector

/-- A record of all that is known of a connector. -/
def toJson (c : Connector) : Json :=
  .object [("name", c.name.toJson), ("capabilities", c.capabilities.toJson),
    ("clusters", .list Name.toJson c.clusters), ("handle", c.handle.toJson)]

/-- The connector of a record. -/
def ofJson : Decoder Connector := fun j => do
  match ← Decoder.record ["name", "capabilities", "clusters", "handle"] j with
  | [name, capabilities, clusters, handle] =>
    return ⟨← Decoder.required Name.ofJson name,
      ← Decoder.required CapabilitySet.ofJson capabilities,
      ← Decoder.required (.list Name.ofJson) clusters, ← Decoder.required Name.ofJson handle⟩
  | _ => .error .malformed

end Connector

namespace Snapshot

/-- An object with the connectors of each cluster. -/
def clustersToJson (clusters : SortedMap ClusterName (List Connector)) : Json :=
  .object (clusters.toList.map fun e => (e.1.text, .list Connector.toJson e.2))

/-- The connectors of each cluster, members taken in any order. -/
def clustersOfJson : Decoder (SortedMap ClusterName (List Connector))
  | .object members => do
    let entries ← members.mapM fun m => do
      return (⟨m.1⟩, ← Decoder.list Connector.ofJson m.2)
    return SortedMap.ofList entries
  | _ => .error .malformed

/-- Pairs of a table and its cluster, tables in ascending order. -/
def tablesToJson (tables : SortedMap TableName ClusterName) : Json :=
  .list (fun e => .array [e.1.toJson, e.2.toJson]) tables.toList

/-- The cluster of each table, that of its last pair. -/
def tablesOfJson : Decoder (SortedMap TableName ClusterName) := fun j =>
  (Decoder.list (.pair TableName.ofJson Name.ofJson) j).map SortedMap.ofList

/-- A record of the clusters and the tables. -/
def toJson (s : Snapshot) : Json :=
  .object [("clusters", clustersToJson s.clusters), ("tables", tablesToJson s.tables)]

/-- The snapshot of a record. -/
def ofJson : Decoder Snapshot := fun j => do
  match ← Decoder.record ["clusters", "tables"] j with
  | [clusters, tables] =>
    return ⟨← Decoder.required clustersOfJson clusters, ← Decoder.required tablesOfJson tables⟩
  | _ => .error .malformed

end Snapshot

end Federation
