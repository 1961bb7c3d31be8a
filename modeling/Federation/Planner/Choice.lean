import Federation.Planner.Branches

/-!
# Choosing a Connector

Of the connectors that serve all of several tables the one with the smallest name
is taken, so a choice never depends on the order of discovery. A name that stands
for different connectors cannot be told apart and is no choice at all.

## Main definitions

* `choose`: The connector that serves every table.
* `chooseFor`: The connector that serves one table.
-/

namespace Federation

/-- The names that occur in every one of several lists, in ascending order. -/
def commonNames : List (List Connector) → List ConnectorName
  | [] => []
  | first :: others =>
    (ascending (first.map Connector.name)).filter fun name =>
      others.all fun connectors => connectors.any fun c => c.name == name

/-- The connector that serves every table. -/
def choose (found : Candidates) : Except PlanningCause Connector :=
  match commonNames found.values with
  | [] => .error (.noCommonConnector found.keys none)
  | winner :: _ =>
    match found.values.flatten.filter fun c => c.name == winner with
    | [] => .error (.noCommonConnector found.keys none)
    | chosen :: others =>
      if others.all fun c => c == chosen then
        .ok chosen
      else
        .error (.ambiguousChoice winner (ascending ((chosen :: others).map Connector.handle)))

/-- The connector that serves one table. -/
def chooseFor (table : TableName) (connectors : List Connector) :
    Except PlanningCause Connector :=
  choose (SortedMap.ofList [(table, connectors)])

end Federation
