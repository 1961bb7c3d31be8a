import Federation.Decimal.Shortest
import Federation.Name
import Federation.Operator
import Federation.Text.Listing

/-!
# Selectors and Relations

What a predicate compares and what an insertion writes: columns, literals and
calls of functions. The planner carries them from the statement to the plan and
never evaluates one.

## Main definitions

* `Selector`, `Relation`: Operands and predicates.
* `Selector.text`, `Relation.text`: How they are written in explanations.
-/

namespace Federation

/-- An operand of a predicate, or a value to be written. -/
inductive Selector where
  | column (name : ColumnName)
  | integer (value : Int64)
  | float (value : Binary64)
  | boolean (value : Bool)
  | string (value : String)
  | function (name : String) (args : List Selector)

namespace Selector

instance : Inhabited Selector := ⟨.boolean false⟩

/-- Whether the operand is a whole number. -/
def isConstant : Selector → Bool
  | .integer _ => true
  | _ => false

/-- Whether the operand is a floating-point number. -/
def isDecimal : Selector → Bool
  | .float _ => true
  | _ => false

/-- The column that the operand is. -/
def column? : Selector → Option ColumnName
  | .column c => some c
  | _ => none

mutual

/-- How a selector is written. Quotes inside a quoted text stay as they are. -/
def text : Selector → String
  | .column c => c.text
  | .integer value => toString value.toInt
  | .float value => value.text
  | .boolean value => if value then "true" else "false"
  | .string value => "'" ++ value ++ "'"
  | .function name args => name ++ "(" ++ ", ".intercalate (texts args) ++ ")"

/-- How several selectors are written. -/
def texts : List Selector → List String
  | [] => []
  | s :: rest => text s :: texts rest

end

end Selector

/-- A predicate that compares two operands. -/
structure Relation where
  left : Selector
  operator : Operator
  right : Selector

instance : Inhabited Relation := ⟨⟨default, .eq, default⟩⟩

/-- How a relation is written. -/
def Relation.text (r : Relation) : String :=
  r.left.text ++ " " ++ r.operator.symbol ++ " " ++ r.right.text

end Federation
