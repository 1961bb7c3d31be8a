/-!
# Comparison Operators

The operators that a predicate may compare with.
-/

namespace Federation

/-- A comparison operator. -/
inductive Operator where
  | eq
  | distinct
  | gt
  | lt
  | ge
  | le
  | matching
deriving DecidableEq

/-- How an operator is written between its operands. -/
def Operator.symbol : Operator → String
  | .eq => "="
  | .distinct => "<>"
  | .gt => ">"
  | .lt => "<"
  | .ge => ">="
  | .le => "<="
  | .matching => "MATCH"

end Federation
