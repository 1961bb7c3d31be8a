import Federation.Wire.Capability
import Federation.Wire.Name

/-!
# Written Selectors

A selector is written as one of its cases. Floating-point literals are written as
numbers, and as null when they are not finite; such a null is not read back. A
literal for a floating-point number may be written as an integer.
-/

namespace Federation

namespace Binary64

/-- A number, or null if it is not finite. -/
def toJson (x : Binary64) : Json := if x.isFinite then .float x else .null

/-- A number, written as an integer or with a fraction. -/
def ofJson : Decoder Binary64
  | .float x => .ok x
  | .int i => .ok (ofInt i)
  | _ => .error .malformed

end Binary64

namespace Selector

mutual

/-- The case of a selector with its content. -/
def toJson : Selector → Json
  | .column c => .case "Column" c.toJson
  | .integer value => .case "Integer" (.int value.toInt)
  | .float value => .case "Float" value.toJson
  | .boolean value => .case "Boolean" (.bool value)
  | .string value => .case "String" (.string value)
  | .function name args =>
    .case "Function" (.object [("name", .string name), ("args", .array (listToJson args))])

/-- Selectors, one by one. -/
def listToJson : List Selector → List Json
  | [] => []
  | s :: rest => toJson s :: listToJson rest

end

/-- An integer of 64 bits. -/
def integerOfJson : Decoder Int64
  | .int i =>
    if Int64.minValue.toInt ≤ i ∧ i ≤ Int64.maxValue.toInt then .ok (Int64.ofInt i)
    else .error .malformed
  | _ => .error .malformed

/-- A selector that is no function, from its case and content. -/
def simpleOfJson (name : String) (content : Json) : Except DecodeError Selector :=
  if name = "Column" then (ColumnName.ofJson content).map .column
  else if name = "Integer" then (integerOfJson content).map .integer
  else if name = "Float" then (Binary64.ofJson content).map .float
  else if name = "Boolean" then (Decoder.bool content).map .boolean
  else if name = "String" then (Decoder.string content).map .string
  else .error .malformed

mutual

/-- The selector of a case with its content. -/
def ofJson : Json → Except DecodeError Selector
  | .object [(name, content)] =>
    if name = "Function" then functionOfJson content else simpleOfJson name content
  | _ => .error .malformed

/-- A function, from its members. -/
def functionOfJson : Json → Except DecodeError Selector
  | .object members => do
    let name ← Decoder.required Decoder.string (Json.lookup "name" members)
    let args ← argsOfJson members
    return .function name args
  | _ => .error .malformed

/-- The arguments of a function, among its members. -/
def argsOfJson : List (String × Json) → Except DecodeError (List Selector)
  | [] => .error .malformed
  | (key, value) :: rest => if key = "args" then arrayOfJson value else argsOfJson rest

/-- An array of selectors. -/
def arrayOfJson : Json → Except DecodeError (List Selector)
  | .array items => itemsOfJson items
  | _ => .error .malformed

/-- Selectors, one by one. -/
def itemsOfJson : List Json → Except DecodeError (List Selector)
  | [] => .ok []
  | j :: rest => do
    let s ← ofJson j
    let more ← itemsOfJson rest
    return s :: more

end

end Selector

namespace Relation

/-- A record of the operands and the operator between them. -/
def toJson (r : Relation) : Json :=
  .object [("left", r.left.toJson), ("operator", r.operator.toJson), ("right", r.right.toJson)]

/-- The relation of a record. -/
def ofJson : Decoder Relation := fun j => do
  match ← Decoder.record ["left", "operator", "right"] j with
  | [left, operator, right] =>
    return ⟨← Decoder.required Selector.ofJson left, ← Decoder.required Operator.ofJson operator,
      ← Decoder.required Selector.ofJson right⟩
  | _ => .error .malformed

end Relation

end Federation
