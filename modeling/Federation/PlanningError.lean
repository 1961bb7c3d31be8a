import Federation.Workflow.Error

/-!
# Planning Errors

Why a statement could not be planned, and how far planning had come. Failure is
no phase of its own: a run that fails reports the last phase it reached.

## Main definitions

* `Phase`: How far planning has come.
* `PlanningCause`, with its `code` and its wording, `message`.
* `PlanningError`: A cause with the query and the phase.
-/

namespace Federation

/-- How far planning has come. -/
inductive Phase where
  | unplanned
  | pathsBuilt
  | connectorsChosen
  | workflowAssembled
deriving DecidableEq

namespace Phase

instance : Ord Phase := ⟨compareOn Phase.ctorIdx⟩

/-- The name of a phase in messages. -/
def text : Phase → String
  | .unplanned => "unplanned"
  | .pathsBuilt => "paths built"
  | .connectorsChosen => "connectors chosen"
  | .workflowAssembled => "workflow assembled"

end Phase

/-- Why a statement could not be planned. -/
inductive PlanningCause where
  /-- No single connector can execute a branch up to and including a step. -/
  | noCapableConnector (table : TableName) (step : Nat) (required : List Capability)
  /-- No connector serves all of several tables. -/
  | noCommonConnector (tables : List TableName) (step : Option Nat)
  /-- One name stands for different connectors. -/
  | ambiguousChoice (connector : ConnectorName) (handles : List Handle)
  /-- No connector of the table's cluster can write. -/
  | noWritableConnector (table : TableName) (cluster : ClusterName) (required : Capability)
  /-- There is no plan for statements of this kind or size. -/
  | unsupportedStatement (statement : String)
  | unknownTable (table : TableName)
  | malformedStatement (error : WorkflowError)
deriving DecidableEq

namespace PlanningCause

/-- The code by which a cause is told apart. -/
def code : PlanningCause → String
  | .noCapableConnector _ _ _ => "NO_CAPABLE_CONNECTOR"
  | .noCommonConnector _ _ => "NO_COMMON_CONNECTOR"
  | .ambiguousChoice _ _ => "AMBIGUOUS_CHOICE"
  | .noWritableConnector _ _ _ => "NO_WRITABLE_CONNECTOR"
  | .unsupportedStatement _ => "UNSUPPORTED_STATEMENT"
  | .unknownTable _ => "UNKNOWN_TABLE"
  | .malformedStatement _ => "MALFORMED_STATEMENT"

/-- The wording of a cause. -/
def message : PlanningCause → String
  | .noCapableConnector table step required =>
    "no connector can execute step " ++ stepLabel step ++ " on table " ++ table.text
      ++ " (needs one of " ++ commaList Capability.tag required ++ ")"
  | .noCommonConnector tables step =>
    "tables " ++ commaList TableName.text tables ++ " share no connector"
      ++ (match step with
        | some step => " at step " ++ stepLabel step
        | none => "")
  | .ambiguousChoice connector handles =>
    "connector name " ++ connector.text ++ " is registered with different definitions ("
      ++ commaList Name.text handles ++ ")"
  | .noWritableConnector table cluster required =>
    "no connector on cluster " ++ cluster.text ++ " declares " ++ required.tag
      ++ " for table " ++ table.text
  | .unsupportedStatement statement => "no planning procedure for " ++ statement
  | .unknownTable table => "table " ++ table.text ++ " is unknown to the metadata store"
  | .malformedStatement error => "malformed statement: " ++ error.message

end PlanningCause

/-- A failed planning run. -/
structure PlanningError where
  query : QueryId
  phase : Phase
  cause : PlanningCause
deriving DecidableEq

/-- The wording of a failed run. -/
def PlanningError.message (e : PlanningError) : String :=
  "[" ++ e.cause.code ++ "] query " ++ e.query.text ++ " failed after phase '" ++ e.phase.text
    ++ "': " ++ e.cause.message

end Federation
