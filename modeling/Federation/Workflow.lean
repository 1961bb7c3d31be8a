import Federation.Workflow.Graph

/-!
# Workflows

The plan of a read before any connector is known: a sound graph of steps with one
terminal. Every branch starts at a scan of one table, runs through filters and
projections and meets other branches at joins until the terminal is left. The
scans, the joins and the terminal follow from the graph, so a workflow is its
graph and the knowledge that it is sound.

## Main definitions

* `Workflow`: A sound graph with one terminal.
* `Workflow.ofGraph`: The workflow of a graph whose ends have been declared.
* `Workflow.tables`, `Workflow.clusters`: What a workflow reads.
-/

namespace Federation

/-- A sound graph of steps, of which exactly one feeds no other. -/
structure Workflow extends Graph where
  terminal : Nat
  sound : toGraph.Sound
  sinks_eq : toGraph.sinks = [terminal]

namespace Workflow

/-- The workflow of a sound graph, unless it is empty or falls apart. -/
def ofSound (g : Graph) (sound : g.Sound) : Except WorkflowError Workflow :=
  match h : g.sinks with
  | [] => .error .empty
  | [terminal] => .ok ⟨g, terminal, sound, h⟩
  | sinks => .error (.multipleTerminals sinks)

/-- The workflow of a graph whose scans and terminal have been declared. Faults of
    the graph are reported before faults of the declaration. -/
def ofGraph (g : Graph) (initial : List Nat) (terminal : Nat) : Except WorkflowError Workflow :=
  match h : g.fault? with
  | some fault => .error fault
  | none => do
    let w ← ofSound g (g.sound_iff_fault?.2 h)
    if initial ≠ w.scans then
      throw (.initialStepsMismatch initial)
    if terminal ≠ w.terminal then
      throw (.terminalMismatch terminal w.terminal)
    return w

/-- The steps at which the branches start: the scans, in ascending order. -/
def initialSteps (w : Workflow) : List Nat := w.scans

/-- The tables that are read, each once, in ascending order. -/
def tables (w : Workflow) : List TableName :=
  ascending (w.initialSteps.filterMap fun id => (w.step? id).bind Step.scannedTable?)

/-- The clusters that are read, each once, in ascending order. -/
def clusters (w : Workflow) : List ClusterName :=
  ascending (w.initialSteps.filterMap fun id => (w.step? id).bind Step.scannedCluster?)

/-- The line of a step and the step it feeds. -/
def line (w : Workflow) (id : Nat) (step : Step) : String :=
  stepLabel id ++ " " ++ step.text
    ++ (match w.next? id with
      | some next => " -> " ++ stepLabel next
      | none => "")
    ++ "\n"

/-- One line for each step. -/
def text (w : Workflow) : String :=
  String.join (w.steps.zipIdx.map fun (step, id) => w.line id step)

/-- Following the links leads to greater and greater numbers. -/
theorem next?_lt {w : Workflow} {id next : Nat} (h : w.next? id = some next) :
    id < next ∧ next < w.size := by
  have hmem : next ∈ w.successors id := List.mem_of_mem_head? h
  obtain ⟨l, hl, rfl⟩ := List.mem_map.1 hmem
  obtain ⟨hl, hid⟩ := List.mem_filter.1 hl
  have := w.sound.forward l hl
  simp only [beq_iff_eq] at hid
  exact ⟨hid ▸ this.1, this.2⟩

end Workflow

end Federation
