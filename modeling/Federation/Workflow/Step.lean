import Federation.Capability
import Federation.Statement.Selector

/-!
# Steps

The steps of a read. A scan reads one table on one cluster, filters and
projections work on what one step produces, and a join brings two together. Each
step lists the capabilities that can execute it; a connector qualifies if it
declares any one of them. Within a workflow a step is known by its number, in
order of addition.

## Main definitions

* `Step`: A step.
* `Step.alternatives`: The capabilities that can execute a step.
* `Step.arity`: How many steps feed it.
* `Step.text`: How it is written in explanations.
-/

namespace Federation

/-- How the step with a number is referred to in messages. -/
def stepLabel (id : Nat) : String := "#" ++ toString id

/-- A column of a result, under the label that the statement gives it. -/
structure OutputColumn where
  column : ColumnName
  label : String
  type : ColumnType
deriving DecidableEq

/-- The extent of a sliding window. -/
inductive Window where
  | rows (count : UInt32)
  | seconds (count : UInt64)
deriving DecidableEq

/-- How a window is written. -/
def Window.text : Window → String
  | .rows count => toString count.toNat ++ " ROWS"
  | .seconds count => toString count.toNat ++ " SECONDS"

/-- A step of a read. -/
inductive Step where
  | scan (table : TableName) (cluster : ClusterName) (columns : List ColumnName)
  | filter (relation : Relation) (operation : Capability)
  | projection (columns : List OutputColumn) (window : Option Window)
  | join (relation : Relation) (alternatives : List Capability)

namespace Step

instance : Inhabited Step := ⟨.projection [] none⟩

/-- The capabilities that can execute a step, most welcome first. -/
def alternatives : Step → List Capability
  | .scan _ _ _ => [.scan]
  | .filter _ operation => [operation]
  | .projection _ none => [.project]
  | .projection _ (some _) => [.selectWindow]
  | .join _ alternatives => alternatives

/-- Whether a step brings two inputs together. -/
def isJoin : Step → Bool
  | .join _ _ => true
  | _ => false

/-- Whether a step reads a table. -/
def isScan : Step → Bool
  | .scan _ _ _ => true
  | _ => false

/-- The table that a scan reads. -/
def scannedTable? : Step → Option TableName
  | .scan table _ _ => some table
  | _ => none

/-- The cluster on which a scan reads. -/
def scannedCluster? : Step → Option ClusterName
  | .scan _ cluster _ => some cluster
  | _ => none

/-- How many steps feed a step. -/
def arity : Step → Nat
  | .scan _ _ _ => 0
  | .join _ _ => 2
  | _ => 1

/-- How a step is written. -/
def text : Step → String
  | .scan table cluster columns =>
    "SCAN " ++ table.text ++ " ON " ++ cluster.text
      ++ " [" ++ commaList ColumnName.name columns ++ "]"
  | .filter relation operation => "FILTER " ++ relation.text ++ " (" ++ operation.tag ++ ")"
  | .projection columns window =>
    "PROJECT " ++ commaList (fun c => c.column.text ++ " AS " ++ c.label) columns
      ++ (match window with
        | some window => " WINDOW " ++ window.text
        | none => "")
  | .join relation alternatives =>
    "JOIN ON " ++ relation.text ++ " (" ++ listing " | " Capability.tag alternatives ++ ")"

end Step

end Federation
