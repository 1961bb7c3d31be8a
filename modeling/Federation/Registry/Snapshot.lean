import Federation.PlanningError
import Federation.Registry
import Federation.SortedMap

/-!
# Snapshots

Connectors come and go while a statement is being planned. A planning run
therefore copies what it needs into a snapshot first and asks the registry
nothing afterwards. Each cluster is asked for once; the capabilities of every
connector found are asked for anew, and a connector that has been forgotten is
left out. Hence all entries of one connector name in a snapshot declare the same
capabilities.

## Main definitions

* `Snapshot`: The connectors of some clusters and the clusters of some tables.
* `Snapshot.capture`: The snapshot of given clusters and tables.
-/

namespace Federation

/-- A frozen copy of part of a registry. -/
structure Snapshot where
  clusters : SortedMap ClusterName (List Connector)
  tables : SortedMap TableName ClusterName
deriving DecidableEq

namespace Snapshot

instance : Inhabited Snapshot := ⟨⟨∅, ∅⟩⟩

/-- The connectors attached to a cluster, in order of discovery. A cluster that
    was not captured has none. -/
def connectorsOf (s : Snapshot) (cluster : ClusterName) : List Connector :=
  (s.clusters.get? cluster).getD []

/-- The cluster of a captured table. -/
def clusterOf (s : Snapshot) (table : TableName) : Option ClusterName := s.tables.get? table

/-- The first connector of a name, clusters taken in ascending order. -/
def connector? (s : Snapshot) (name : ConnectorName) : Option Connector :=
  s.clusters.values.flatten.find? fun c => c.name == name

/-- The clusters of tables, up to the first table that has none. -/
def locate (r : Registry) : List TableName →
    Asked (Except PlanningCause (List (TableName × ClusterName)))
  | [] => pure (.ok [])
  | table :: rest => do
    match ← r.askCluster table with
    | none => return .error (.unknownTable table)
    | some cluster =>
      let located ← locate r rest
      return located.map ((table, cluster) :: ·)

/-- A connector with what it declares now, unless it has been forgotten. -/
def refresh (r : Registry) (c : Connector) : Asked (Option Connector) := do
  let capabilities ← r.askCapabilities c.name
  return capabilities.map fun now => { c with capabilities := now }

/-- The connectors of a cluster as they are now. -/
def attached (r : Registry) (cluster : ClusterName) : Asked (ClusterName × List Connector) := do
  let listed ← r.askConnectors cluster
  let refreshed ← Asked.each (refresh r) listed
  return (cluster, refreshed.filterMap id)

/-- The snapshot of given clusters and tables and of the clusters of the tables.
    It fails at the first table without a cluster, before any connector is asked
    for. -/
def capture (r : Registry) (clusters : List ClusterName) (tables : List TableName) :
    Asked (Except PlanningCause Snapshot) := do
  match ← locate r tables with
  | .error cause => return .error cause
  | .ok located =>
    let tables := SortedMap.ofList located
    let wanted := ascending (clusters ++ tables.values)
    let connectors ← Asked.each (attached r) wanted
    return .ok ⟨SortedMap.ofList connectors, tables⟩

end Snapshot

end Federation
