import Federation.Connector

/-!
# Registries

The planner owns no metadata. A registry answers three questions about
connectors and tables, and its answers need not agree with one another: it may
list a connector on a cluster and have forgotten what the connector can do. What
a computation asks, and in which order, is part of its result, so that asking
too often is as visible as a wrong answer.

## Main definitions

* `Registry`: The three answers.
* `Question`: What can be asked.
* `Asked`: A result with the questions that led to it.
-/

namespace Federation

/-- A question to a registry. -/
inductive Question where
  | clusterOf (table : TableName)
  | connectorsOf (cluster : ClusterName)
  | capabilitiesOf (connector : ConnectorName)
deriving DecidableEq

/-- The answers of a registry. -/
structure Registry where
  /-- The cluster that holds a table. -/
  clusterOf : TableName → Option ClusterName
  /-- The connectors attached to a cluster, in order of discovery. -/
  connectorsOf : ClusterName → List Connector
  /-- What a connector declares now, unless it has been forgotten. -/
  capabilitiesOf : ConnectorName → Option CapabilitySet

/-- A result with the questions that were asked on the way, in order. -/
structure Asked (α : Type) where
  value : α
  questions : List Question

namespace Asked

instance : Monad Asked where
  pure a := ⟨a, []⟩
  bind x f :=
    let y := f x.value
    ⟨y.value, x.questions ++ y.questions⟩

/-- The answer to one question. -/
def ask {α : Type} (question : Question) (answer : α) : Asked α := ⟨answer, [question]⟩

/-- Asks on behalf of every member of a list, in order. -/
def each {α β : Type} (f : α → Asked β) : List α → Asked (List β)
  | [] => pure []
  | a :: rest => do
    let b ← f a
    let more ← each f rest
    return b :: more

end Asked

namespace Registry

/-- Asks for the cluster of a table. -/
def askCluster (r : Registry) (table : TableName) : Asked (Option ClusterName) :=
  .ask (.clusterOf table) (r.clusterOf table)

/-- Asks for the connectors attached to a cluster. -/
def askConnectors (r : Registry) (cluster : ClusterName) : Asked (List Connector) :=
  .ask (.connectorsOf cluster) (r.connectorsOf cluster)

/-- Asks what a connector declares. -/
def askCapabilities (r : Registry) (connector : ConnectorName) : Asked (Option CapabilitySet) :=
  .ask (.capabilitiesOf connector) (r.capabilitiesOf connector)

end Registry

end Federation
