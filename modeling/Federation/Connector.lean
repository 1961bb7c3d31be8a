import Federation.Capability.Set
import Federation.Workflow.Step

/-!
# Connectors

A connector is a process that reads and writes tables of the clusters it is
attached to. To the planner it is a name, the capabilities it declares, the
clusters it serves and the address at which it is reached. Two connectors of one
name are the same connector only if they agree in all of that.

## Main definitions

* `Connector`: What is known of a connector.
* `Connector.capabilityFor?`: How a connector would execute a step.
* `ableTo`, `sharedWith`: Narrowing a list of connectors to those of use.
-/

namespace Federation

/-- What is known of a connector. -/
structure Connector where
  name : ConnectorName
  capabilities : CapabilitySet
  clusters : List ClusterName
  handle : Handle
deriving DecidableEq

namespace Connector

instance : Inhabited Connector := ⟨⟨default, default, [], default⟩⟩

/-- Whether a connector declares a capability. -/
def supports (c : Connector) (capability : Capability) : Bool :=
  c.capabilities.declares capability

/-- The capability with which a connector would execute a step: the first of the
    step's alternatives that it declares. -/
def capabilityFor? (c : Connector) (step : Step) : Option Capability :=
  c.capabilities.firstDeclared? step.alternatives

/-- Whether a connector can execute a step. -/
def canRun (c : Connector) (step : Step) : Bool := (c.capabilityFor? step).isSome

/-- Whether a connector is attached to a cluster. -/
def isAttachedTo (c : Connector) (cluster : ClusterName) : Bool := c.clusters.contains cluster

/-- A connector and its address. -/
def text (c : Connector) : String := c.name.text ++ " (" ++ c.handle.text ++ ")"

end Connector

/-- The connectors that can execute a step, in their order. -/
def ableTo (step : Step) (connectors : List Connector) : List Connector :=
  connectors.filter fun c => c.canRun step

/-- The connectors whose names are also among others, in their order. -/
def sharedWith (others connectors : List Connector) : List Connector :=
  connectors.filter fun c => others.any fun o => o.name == c.name

end Federation
