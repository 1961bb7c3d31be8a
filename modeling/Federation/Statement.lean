import Federation.Statement.Insert
import Federation.Workflow

/-!
# Statements

A statement as the front end hands it over: names resolved and types checked. A
read arrives as a workflow and a write as an insertion. Commands on the metadata
are answered elsewhere; they are statements so that refusing to plan one can say
what was refused.

## Main definitions

* `Command`: A command on the metadata.
* `Statement`: A query's identity and its body.
-/

namespace Federation

/-- A command on the metadata. -/
inductive Command where
  | listConnectors
  | listClusters
  | describeTable (table : TableName)
  | createCatalog (catalog : CatalogName)
  | dropCatalog (catalog : CatalogName)
deriving DecidableEq

/-- How a command is written. -/
def Command.text : Command → String
  | .listConnectors => "LIST CONNECTORS"
  | .listClusters => "LIST CLUSTERS"
  | .describeTable table => "DESCRIBE TABLE " ++ table.text
  | .createCatalog catalog => "CREATE CATALOG " ++ catalog.text
  | .dropCatalog catalog => "DROP CATALOG " ++ catalog.text

/-- What a statement asks for. -/
inductive StatementBody where
  | select (workflow : Workflow)
  | insert (insertion : Insertion)
  | command (command : Command)

/-- A statement with the query it belongs to. -/
structure Statement where
  query : QueryId
  catalog : CatalogName
  body : StatementBody

end Federation
