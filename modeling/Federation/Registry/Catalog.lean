import Federation.Registry
import Federation.SortedMap

/-!
# The In-Memory Catalog

A registry whose content is kept here. Which connectors serve which clusters is
recorded twice, once with each connector and once with each cluster, because both
orders can be seen: a connector lists its clusters in the order in which it came
to serve them, and a cluster its connectors in the order in which they were
attached. Registering a connector again replaces what is known of it but keeps
its attachments; only detaching and removing end one.

## Main definitions

* `Catalog`: Connectors, attachments and tables.
* `Catalog.register`, `attach`, `detach`, `remove`, `registerTable`.
* `Catalog.registry`: The answers of a catalog.
* `Catalog.Change`, `Catalog.perform`, `Catalog.after`: A call as a value, its
  effect, and that of several calls.
-/

namespace Federation

/-- Why a catalog refuses a change. -/
inductive CatalogError where
  | unknownConnector (name : ConnectorName)
deriving DecidableEq

/-- The wording of a refusal. -/
def CatalogError.message : CatalogError → String
  | .unknownConnector name => "connector " ++ name.text ++ " is not registered"

/-- A list with a member at its end, unless it has the member already. -/
def addLast {α : Type} [BEq α] (l : List α) (a : α) : List α :=
  if l.contains a then l else l ++ [a]

/-- Connectors and tables kept in memory. -/
structure Catalog where
  connectors : SortedMap ConnectorName Connector
  /-- The names attached to each cluster, in order of attachment. -/
  attachments : SortedMap ClusterName (List ConnectorName)
  tables : SortedMap TableName ClusterName
deriving DecidableEq

namespace Catalog

/-- The catalog without content. -/
def empty : Catalog := ⟨∅, ∅, ∅⟩

instance : Inhabited Catalog := ⟨empty⟩

/-- The names attached to a cluster. -/
def attachedTo (c : Catalog) (cluster : ClusterName) : List ConnectorName :=
  (c.attachments.get? cluster).getD []

/-- Records with a cluster that a connector is attached to it. -/
def listAttachment (c : Catalog) (name : ConnectorName) (cluster : ClusterName) : Catalog :=
  { c with attachments := c.attachments.insert cluster (addLast (c.attachedTo cluster) name) }

/-- Strikes a connector from the record of a cluster. -/
def strikeAttachment (c : Catalog) (name : ConnectorName) (cluster : ClusterName) : Catalog :=
  { c with
    attachments := c.attachments.insert cluster ((c.attachedTo cluster).filter (· != name)) }

/-- Registers a connector or updates what is known of it. It keeps the clusters
    it serves and is attached to those that it lists besides. -/
def register (c : Catalog) (connector : Connector) : Catalog :=
  let served := ((c.connectors.get? connector.name).map Connector.clusters).getD []
  let clusters := connector.clusters.foldl addLast served
  let listed := clusters.foldl (fun c cluster => c.listAttachment connector.name cluster) c
  { listed with
    connectors := listed.connectors.insert connector.name { connector with clusters := clusters } }

/-- Attaches a registered connector to a cluster. -/
def attach (c : Catalog) (cluster : ClusterName) (name : ConnectorName) :
    Except CatalogError Catalog :=
  match c.connectors.get? name with
  | none => .error (.unknownConnector name)
  | some connector =>
    let served := { connector with clusters := addLast connector.clusters cluster }
    let listed := c.listAttachment name cluster
    .ok { listed with connectors := listed.connectors.insert name served }

/-- Detaches a registered connector from a cluster. -/
def detach (c : Catalog) (cluster : ClusterName) (name : ConnectorName) :
    Except CatalogError Catalog :=
  match c.connectors.get? name with
  | none => .error (.unknownConnector name)
  | some connector =>
    let served := { connector with clusters := connector.clusters.filter (· != cluster) }
    let struck := c.strikeAttachment name cluster
    .ok { struck with connectors := struck.connectors.insert name served }

/-- Forgets a connector, on every cluster that it serves. Gives what was known of
    it. -/
def remove (c : Catalog) (name : ConnectorName) : Option Connector × Catalog :=
  match c.connectors.get? name with
  | none => (none, c)
  | some connector =>
    let struck := connector.clusters.foldl (fun c cluster => c.strikeAttachment name cluster) c
    (some connector, { struck with connectors := struck.connectors.erase name })

/-- Records the cluster that holds a table. -/
def registerTable (c : Catalog) (table : TableName) (cluster : ClusterName) : Catalog :=
  { c with tables := c.tables.insert table cluster }

/-- The answers of a catalog. -/
def registry (c : Catalog) : Registry where
  clusterOf table := c.tables.get? table
  connectorsOf cluster := (c.attachedTo cluster).filterMap c.connectors.get?
  capabilitiesOf name := (c.connectors.get? name).map Connector.capabilities

/-- One call, as a value. -/
inductive Change where
  | register (connector : Connector)
  | attach (cluster : ClusterName) (name : ConnectorName)
  | detach (cluster : ClusterName) (name : ConnectorName)
  | remove (name : ConnectorName)
  | registerTable (table : TableName) (cluster : ClusterName)

/-- The effect of a call. -/
def perform (c : Catalog) : Change → Except CatalogError Catalog
  | .register connector => .ok (c.register connector)
  | .attach cluster name => c.attach cluster name
  | .detach cluster name => c.detach cluster name
  | .remove name => .ok (c.remove name).2
  | .registerTable table cluster => .ok (c.registerTable table cluster)

/-- The catalog after calls on one without content, the latest call first. A call
    that is refused changes nothing. -/
def after : List Change → Catalog
  | [] => empty
  | change :: past =>
    match (after past).perform change with
    | .ok c => c
    | .error _ => after past

end Catalog

end Federation
