import Federation.Name
import Federation.Wire.Decoder

/-!
# Written Names

A simple name is written as its text and a qualified name as a record. Any text
may be a name; the grammar of qualified names plays no part here.
-/

namespace Federation

namespace Name

variable {kind : Kind}

/-- The text of a name. -/
def toJson (n : Name kind) : Json := .string n.text

/-- Any text is a name. -/
def ofJson : Decoder (Name kind) := fun j => (Decoder.string j).map Name.mk

end Name

namespace TableName

/-- A record of the catalog and the name within it. -/
def toJson (t : TableName) : Json :=
  .object [("catalog", t.catalog.toJson), ("name", .string t.name)]

/-- The table of a record. -/
def ofJson : Decoder TableName := fun j => do
  match ← Decoder.record ["catalog", "name"] j with
  | [catalog, name] =>
    return ⟨← Decoder.required Name.ofJson catalog, ← Decoder.required Decoder.string name⟩
  | _ => .error .malformed

end TableName

namespace ColumnName

/-- A record of the table and the name within it. -/
def toJson (c : ColumnName) : Json :=
  .object [("table", c.table.toJson), ("name", .string c.name)]

/-- The column of a record. -/
def ofJson : Decoder ColumnName := fun j => do
  match ← Decoder.record ["table", "name"] j with
  | [table, name] =>
    return ⟨← Decoder.required TableName.ofJson table, ← Decoder.required Decoder.string name⟩
  | _ => .error .malformed

end ColumnName

namespace ColumnType

/-- Every column type. -/
def all : List ColumnType := [.int, .bigInt, .float, .double, .boolean, .text, .varchar]

/-- The name of a column type in written values. -/
def label : ColumnType → String
  | .int => "Int"
  | .bigInt => "BigInt"
  | .float => "Float"
  | .double => "Double"
  | .boolean => "Boolean"
  | .text => "Text"
  | .varchar => "Varchar"

/-- The name of a column type. -/
def toJson (t : ColumnType) : Json := .string t.label

/-- The column type of a name. -/
def ofJson : Decoder ColumnType := Decoder.enumeration all label

end ColumnType

end Federation
