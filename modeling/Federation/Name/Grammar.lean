import Federation.Name
import Federation.Text.Word

/-!
# Written Names

Qualified names as statements and metadata write them: identifiers with a dot
between two of them, `catalog.table` and `catalog.table.column`, gaps around the
whole. Names that come from elsewhere need not follow this grammar; it is only
what is accepted from text.

## Main definitions

* `NameError`: What a text was expected to be and is not.
* `TableName.ofText`, `ColumnName.ofText`: The name that a text writes.
-/

namespace Federation

/-- The text that is not what was expected. -/
inductive NameError where
  | invalidTable (text : String)
  | invalidColumn (text : String)
  | invalidCapability (text : String)
deriving DecidableEq

/-- The wording of a failure to read a name. -/
def NameError.message : NameError → String
  | .invalidTable text =>
    "'" ++ text ++ "' is not a qualified table name (expected catalog.table)"
  | .invalidColumn text =>
    "'" ++ text ++ "' is not a qualified column name (expected catalog.table.column)"
  | .invalidCapability text => "'" ++ text ++ "' is not a known capability"

namespace Text

/-- A leading table name. -/
def tableName? : Reader TableName := fun cs => do
  let (catalog, cs) ← identifier? cs
  let (_, cs) ← mark? '.' cs
  let (name, cs) ← identifier? cs
  return (⟨⟨catalog⟩, name⟩, cs)

/-- A leading column name. -/
def columnName? : Reader ColumnName := fun cs => do
  let (table, cs) ← tableName? cs
  let (_, cs) ← mark? '.' cs
  let (name, cs) ← identifier? cs
  return (⟨table, name⟩, cs)

end Text

/-- The table that a text names. A refusal quotes the text as it came. -/
def TableName.ofText (s : String) : Except NameError TableName :=
  match Text.whole? Text.tableName? s with
  | some table => .ok table
  | none => .error (.invalidTable s)

/-- The column that a text names. A refusal quotes the text as it came. -/
def ColumnName.ofText (s : String) : Except NameError ColumnName :=
  match Text.whole? Text.columnName? s with
  | some column => .ok column
  | none => .error (.invalidColumn s)

end Federation
