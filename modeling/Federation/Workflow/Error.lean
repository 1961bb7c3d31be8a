import Federation.Workflow.Step

/-!
# Workflow Errors

Why a statement cannot be taken as it is: a step that may not be added, steps
that do not form one workflow, a written workflow whose links or ends are wrong,
or an insertion whose columns and values do not pair up.

## Main definitions

* `WorkflowError`: The causes.
* `WorkflowError.message`: Their wording.
-/

namespace Federation

/-- Why a statement is malformed. -/
inductive WorkflowError where
  | unknownStep (step : Nat)
  | alreadyLinked (step : Nat)
  | invalidFilter (column : ColumnClass) (operator : Operator)
  | notAJoinCapability (capability : Capability)
  | noJoinAlternatives
  | sameInput (step : Nat)
  | empty
  | multipleTerminals (terminals : List Nat)
  | arityMismatch (columns values : Nat)
  | backwardLink (source target : Nat)
  | inputCount (step : Nat) (expected found : Nat)
  | notAFilterCapability (capability : Capability)
  | initialStepsMismatch (declared : List Nat)
  | terminalMismatch (declared actual : Nat)
  /-- Step numbers are 32 bits wide, so a workflow cannot grow without end. -/
  | full
deriving DecidableEq

namespace WorkflowError

/-- The wording of a cause. -/
def message : WorkflowError → String
  | unknownStep step => "step " ++ stepLabel step ++ " does not belong to this workflow"
  | alreadyLinked step => "step " ++ stepLabel step ++ " already has a downstream step"
  | invalidFilter column operator =>
    "operator " ++ operator.symbol ++ " can't filter a " ++ column.label ++ " column"
  | notAJoinCapability capability => capability.tag ++ " is not a join capability"
  | noJoinAlternatives => "join step needs at least one join capability"
  | sameInput step =>
    "join needs two different upstream steps, got " ++ stepLabel step ++ " twice"
  | empty => "workflow has no steps"
  | multipleTerminals terminals =>
    "workflow has several terminal steps: " ++ commaList stepLabel terminals
  | arityMismatch columns values =>
    toString columns ++ " columns but " ++ toString values ++ " values"
  | backwardLink source target =>
    "step " ++ stepLabel source ++ " links back to " ++ stepLabel target
  | inputCount step expected found =>
    "step " ++ stepLabel step ++ " has " ++ toString found ++ " upstream steps, expected "
      ++ toString expected
  | notAFilterCapability capability => capability.tag ++ " is not a filter capability"
  | initialStepsMismatch declared =>
    "initial steps " ++ commaList stepLabel declared ++ " are not the scans of the workflow"
  | terminalMismatch declared actual =>
    "declared terminal " ++ stepLabel declared ++ " but the workflow ends at " ++ stepLabel actual
  | full => "workflow has no room for another step"

end WorkflowError

end Federation
