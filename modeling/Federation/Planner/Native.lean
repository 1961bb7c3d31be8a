import Federation.Planner.Choice

/-!
# Native Joins

A join is native when one connector can execute it together with everything that
feeds it and every step up to the next join. Native joins are found from the
scans downwards, since a join can only be native if what feeds it is. Connectors
are then settled from the terminal upwards: a native join that feeds another
takes over the connector settled there, so that all of a native subtree stays on
one connector.

## Main definitions

* `Fragment`: A native join with the connectors that can execute all of it.
* `nativeFragments`: The native joins of a workflow, in ascending order.
* `wholeFragment?`: The fragment that is the whole workflow.
* `settle`: One connector for each native join.
-/

namespace Federation

/-- A part of a workflow that single connectors can execute as a whole. -/
structure Fragment where
  connectors : List Connector
  tables : List TableName
  /-- The join that the part feeds, unless it ends at the terminal. -/
  downstream : Option Nat
deriving DecidableEq

namespace Fragment

/-- The connectors of a fragment, for each of its tables. -/
def candidates (f : Fragment) : Candidates :=
  SortedMap.ofList (f.tables.map fun table => (table, f.connectors))

/-- A branch as a fragment. -/
def ofBranch (b : Branch) : Fragment := ⟨b.connectors, [b.table], b.next⟩

end Fragment

/-- The fragments that feed a join: branches first, then native joins. -/
def feeding (join : Nat) (branches : List Branch) (found : List (Nat × Fragment)) :
    List Fragment :=
  (branches.map Fragment.ofBranch ++ found.map (·.2)).filter fun f => f.downstream == some join

/-- The fragment of a join, if the join is native: both inputs and all steps up to
    the next join must have connectors in common. -/
def fragmentAt? (w : Workflow) (branches : List Branch) (found : List (Nat × Fragment))
    (join : Nat) : Option Fragment :=
  match feeding join branches found with
  | [left, right] =>
    match w.ableAt join (sharedWith right.connectors left.connectors) with
    | [] => none
    | c :: running =>
      let r := w.reach (w.next? join) (c :: running)
      if r.stoppedAt.all w.isJoinAt then
        some ⟨r.connectors, ascending (left.tables ++ right.tables), r.stoppedAt⟩
      else
        none
  | _ => none

/-- The native joins with their fragments, in ascending order. -/
def nativeFragments (w : Workflow) (branches : List Branch) : List (Nat × Fragment) :=
  w.joins.foldl
    (fun found join =>
      match fragmentAt? w branches found join with
      | some fragment => found ++ [(join, fragment)]
      | none => found)
    []

/-- The fragment that is the whole workflow: its only branch, or else the fragment
    at its end if every join is native. -/
def wholeFragment? (w : Workflow) (branches : List Branch) (found : List (Nat × Fragment)) :
    Option Fragment :=
  match w.joins with
  | [] =>
    match branches with
    | [b] => if b.next.isNone then some (Fragment.ofBranch b) else none
    | _ => none
  | joins =>
    if joins.all fun join => (found.lookup join).isSome then
      (found.find? fun f => f.2.downstream.isNone).map (·.2)
    else
      none

/-- The connector settled at a join, among connectors of the same name. -/
def inherited? (settled : List (Nat × Connector)) (downstream : Option Nat)
    (connectors : List Connector) : Option Connector := do
  let join ← downstream
  let chosen ← settled.lookup join
  connectors.find? fun c => c.name == chosen.name

/-- One connector for each native join, settled from the last join to the first. -/
def settle : List (Nat × Fragment) → Except PlanningCause (List (Nat × Connector))
  | [] => .ok []
  | (join, fragment) :: later => do
    let settled ← settle later
    match inherited? settled fragment.downstream fragment.connectors with
    | some c => return (join, c) :: settled
    | none =>
      let c ← choose fragment.candidates
      return (join, c) :: settled

/-- Assigns a branch: to the connector of the native join it feeds, or else to the
    choice for its table. -/
def assign (settled : List (Nat × Connector)) (b : Branch) :
    Except PlanningCause AssignedBranch :=
  match inherited? settled b.next b.connectors with
  | some c => .ok ⟨b, c⟩
  | none => (chooseFor b.table b.connectors).map fun c => ⟨b, c⟩

end Federation
