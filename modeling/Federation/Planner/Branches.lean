import Federation.Plan
import Federation.PlanningError
import Federation.Registry.Snapshot
import Federation.Workflow.Segment

/-!
# Branches

How far connectors get. Going along a segment, the connectors that can execute
every step so far become fewer; the walk stops before the step that would leave
none. From a scan this gives a branch, the longest run of steps that some
connector can execute as a whole together with all connectors that can. Since no
connector could go on from a step in the middle of a segment with rows it did not
read itself, a branch that stops before its join cannot be planned at all.

## Main definitions

* `candidates`: The connectors that can scan each table.
* `Workflow.reach`: How far some connectors get from a step.
* `Branch.of`: The branch of a scan.
* `branchesOf`: The branches of a workflow, every one of them up to its join.
-/

namespace Federation

/-- Connectors for each of several tables. -/
abbrev Candidates := SortedMap TableName (List Connector)

/-- For every table that is scanned, the connectors of the scan's cluster that can
    execute the scan. The first scan of a table counts. -/
def candidates (s : Snapshot) (w : Workflow) : Candidates :=
  w.initialSteps.foldl
    (fun found id =>
      match w.step? id with
      | some (.scan table cluster columns) =>
        found.insertIfNew table (ableTo (.scan table cluster columns) (s.connectorsOf cluster))
      | _ => found)
    ∅

/-- How far some connectors get. -/
structure Reach where
  steps : List Nat
  /-- Those that can execute all of the steps. -/
  connectors : List Connector
  /-- Where the walk stopped, unless at the end of the workflow. -/
  stoppedAt : Option Nat
deriving DecidableEq

namespace Workflow

/-- The connectors that can execute the step of a number. -/
def ableAt (w : Workflow) (id : Nat) (connectors : List Connector) : List Connector :=
  match w.step? id with
  | some step => ableTo step connectors
  | none => []

/-- Goes along given steps as long as a connector is left; `stop` is where the
    steps lead. -/
def cover (w : Workflow) (stop : Option Nat) (running : List Connector) : List Nat → Reach
  | [] => ⟨[], running, stop⟩
  | id :: rest =>
    match w.ableAt id running with
    | [] => ⟨[], running, some id⟩
    | c :: narrowed =>
      let further := w.cover stop (c :: narrowed) rest
      ⟨id :: further.steps, further.connectors, further.stoppedAt⟩

/-- How far some connectors get from a step before the next join. -/
def reach (w : Workflow) (start : Option Nat) (running : List Connector) : Reach :=
  let segment := w.segment start
  w.cover segment.join? running segment.steps

end Workflow

/-- The branch of a scan: the longest run of steps that one of the candidates can
    execute as a whole. -/
def Branch.of (w : Workflow) (initial : Nat) (candidates : List Connector) :
    Except PlanningCause Branch :=
  match w.step? initial with
  | some (.scan table cluster columns) =>
    let step := Step.scan table cluster columns
    match ableTo step candidates with
    | [] => .error (.noCapableConnector table initial step.alternatives)
    | c :: running =>
      let r := w.reach (w.next? initial) (c :: running)
      .ok ⟨table, initial, r.steps.getLastD initial, initial :: r.steps, r.connectors, r.stoppedAt⟩
  | _ =>
    .error (.unsupportedStatement
      ("execution path starting at " ++ stepLabel initial ++ ", which is not a scan"))

/-- Why a branch that stops before its join cannot be planned. -/
def Branch.gap? (w : Workflow) (b : Branch) : Option PlanningCause :=
  match b.next with
  | none => none
  | some next =>
    if w.isJoinAt next then none
    else some (.noCapableConnector b.table next (((w.step? next).map Step.alternatives).getD []))

/-- The branches of a workflow, one for each scan. A scan that nobody can execute
    is reported before a branch that stops too early. -/
def branchesOf (s : Snapshot) (w : Workflow) : Except PlanningCause (List Branch) := do
  let found := candidates s w
  let branches ← w.initialSteps.mapM fun id =>
    Branch.of w id ((((w.step? id).bind Step.scannedTable?).bind found.get?).getD [])
  match branches.findSome? (Branch.gap? w) with
  | some cause => throw cause
  | none => return branches

end Federation
