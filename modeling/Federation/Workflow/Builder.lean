import Federation.Workflow

/-!
# Building Workflows

A workflow is built call by call: each call adds one step, fed by steps added
before. Everything a call asks for is examined before anything is added, so a
call that fails leaves the builder as it was, and every builder holds a sound
graph.

## Main definitions

* `Builder`: A sound graph that may still have several ends.
* `Builder.scan`, `filter`, `project`, `window`, `join`, `joinWith`: The calls.
* `Builder.Call`, `Builder.perform`: A call as a value, and its effect.
* `Builder.build`: The workflow, if the graph has exactly one end.
-/

namespace Federation

/-- A workflow under construction. -/
structure Builder where
  graph : Graph
  sound : graph.Sound

namespace Builder

/-- The builder without steps. -/
def empty : Builder := ⟨Graph.empty, Graph.Sound.empty⟩

instance : Inhabited Builder := ⟨empty⟩

/-- Why a step cannot be fed by the step of a number: there is none, or it feeds
    another already. -/
def feedFault? (b : Builder) (id : Nat) : Option WorkflowError :=
  if b.graph.size ≤ id then some (.unknownStep id)
  else if (b.graph.successors id).isEmpty then none
  else some (.alreadyLinked id)

/-- A step without a fault is there and feeds nothing yet. -/
theorem feedFault?_eq_none {b : Builder} {id : Nat} (h : b.feedFault? id = none) :
    id < b.graph.size ∧ b.graph.successors id = [] := by
  unfold feedFault? at h
  split at h
  · cases h
  · split at h
    · exact ⟨by omega, List.isEmpty_iff.1 ‹_›⟩
    · cases h

/-- Adds a step of the right shape, given the steps that feed it, and gives the
    number of the new step. -/
def append (b : Builder) (feeds : List Nat) (step : Step) (admitted : step.fault? = none)
    (enough : feeds.length = step.arity) (different : feeds.Nodup) :
    Except WorkflowError (Nat × Builder) :=
  match h : feeds.findSome? b.feedFault? with
  | some fault => .error fault
  | none =>
    if room : b.graph.size < Graph.capacity then
      .ok (b.graph.size, ⟨b.graph.append feeds step,
        b.sound.append room admitted enough different fun id hid =>
          feedFault?_eq_none (List.findSome?_eq_none_iff.1 h id hid)⟩)
    else
      .error .full

/-- Adds a scan of a table on a cluster. -/
def scan (b : Builder) (table : TableName) (cluster : ClusterName) (columns : List ColumnName) :
    Except WorkflowError (Nat × Builder) :=
  b.append [] (.scan table cluster columns) rfl rfl List.nodup_nil

/-- Adds a filter on a column of a class. -/
def filter (b : Builder) (up : Nat) (column : ColumnClass) (relation : Relation) :
    Except WorkflowError (Nat × Builder) :=
  match h : Capability.filter? column relation.operator with
  | none => .error (.invalidFilter column relation.operator)
  | some operation =>
    b.append [up] (.filter relation operation)
      (by simp [Step.fault?, Capability.isFilter_of_filter? h]) rfl (by simp)

/-- Adds a projection. -/
def project (b : Builder) (up : Nat) (columns : List OutputColumn) :
    Except WorkflowError (Nat × Builder) :=
  b.append [up] (.projection columns none) rfl rfl (by simp)

/-- Adds a projection over a sliding window. -/
def window (b : Builder) (up : Nat) (columns : List OutputColumn) (window : Window) :
    Except WorkflowError (Nat × Builder) :=
  b.append [up] (.projection columns (some window)) rfl rfl (by simp)

/-- Adds a join that any of the given capabilities may execute. -/
def joinWith (b : Builder) (left right : Nat) (relation : Relation)
    (alternatives : List Capability) : Except WorkflowError (Nat × Builder) :=
  if same : left = right then
    .error (.sameInput left)
  else
    match h : (Step.join relation alternatives).fault? with
    | some fault => .error fault
    | none => b.append [left, right] (.join relation alternatives) h rfl (by simp [same])

/-- Adds a join that any join capability may execute. -/
def join (b : Builder) (left right : Nat) (relation : Relation) :
    Except WorkflowError (Nat × Builder) :=
  b.joinWith left right relation Capability.joinVariants

/-- The workflow that has been built. -/
def build (b : Builder) : Except WorkflowError Workflow := Workflow.ofSound b.graph b.sound

/-- One call, as a value. -/
inductive Call where
  | scan (table : TableName) (cluster : ClusterName) (columns : List ColumnName)
  | filter (up : Nat) (column : ColumnClass) (relation : Relation)
  | project (up : Nat) (columns : List OutputColumn)
  | window (up : Nat) (columns : List OutputColumn) (window : Window)
  | join (left right : Nat) (relation : Relation)
  | joinWith (left right : Nat) (relation : Relation) (alternatives : List Capability)

/-- The effect of a call. -/
def perform (b : Builder) : Call → Except WorkflowError (Nat × Builder)
  | .scan table cluster columns => b.scan table cluster columns
  | .filter up column relation => b.filter up column relation
  | .project up columns => b.project up columns
  | .window up columns window => b.window up columns window
  | .join left right relation => b.join left right relation
  | .joinWith left right relation alternatives => b.joinWith left right relation alternatives

end Builder

end Federation
