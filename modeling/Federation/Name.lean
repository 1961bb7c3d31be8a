/-!
# Names

Names are opaque text, compared and ordered by code point. Which kind of thing a
name names is part of its type, so a cluster can never stand where a connector
belongs. Table and column names are qualified: a table belongs to a catalog and a
column to a table, and qualified names are ordered part by part from the left.

## Main definitions

* `Name`: The name of a query, catalog, cluster, connector or connector address.
* `TableName`, `ColumnName`: Qualified names, with their written form `text`.
* `ColumnType`: The types a column may have.
-/

namespace Federation

/-- What a name can name. -/
inductive Kind where
  | query
  | catalog
  | cluster
  | connector
  | handle
deriving DecidableEq

/-- The name of one thing of a kind. -/
structure Name (kind : Kind) where
  text : String
deriving DecidableEq

/-- Correlates a plan with the results collected for it. -/
abbrev QueryId := Name .query

/-- A catalog, a collection of tables. -/
abbrev CatalogName := Name .catalog

/-- A cluster, a place where tables are kept. -/
abbrev ClusterName := Name .cluster

/-- A connector, a process that reads and writes the tables of clusters. -/
abbrev ConnectorName := Name .connector

/-- The address at which a connector is reached; never interpreted here. -/
abbrev Handle := Name .handle

namespace Name

variable {kind : Kind}

instance : Inhabited (Name kind) := ⟨⟨""⟩⟩

instance : Ord (Name kind) := ⟨compareOn Name.text⟩

instance : Std.TransOrd (Name kind) :=
  inferInstanceAs (Std.TransCmp (compareOn Name.text))

instance : Std.LawfulEqOrd (Name kind) where
  eq_of_compare {a b} h := by
    have h : a.text = b.text := Std.LawfulEqOrd.eq_of_compare (α := String) h
    cases a; cases b; exact congrArg Name.mk h

end Name

/-- A table of a catalog. -/
structure TableName where
  catalog : CatalogName
  name : String
deriving DecidableEq

namespace TableName

instance : Inhabited TableName := ⟨⟨default, ""⟩⟩

instance : Ord TableName :=
  ⟨compareLex (compareOn TableName.catalog) (compareOn TableName.name)⟩

instance : Std.TransOrd TableName :=
  inferInstanceAs
    (Std.TransCmp (compareLex (compareOn TableName.catalog) (compareOn TableName.name)))

instance : Std.LawfulEqOrd TableName where
  eq_of_compare {a b} h := by
    obtain ⟨h₁, h₂⟩ := Ordering.then_eq_eq.1 h
    have h₁ : a.catalog = b.catalog := Std.LawfulEqOrd.eq_of_compare (α := CatalogName) h₁
    have h₂ : a.name = b.name := Std.LawfulEqOrd.eq_of_compare (α := String) h₂
    cases a; cases b; simp_all

/-- Tables come in the order of their catalogs, and those of one catalog in that of
    their names. -/
theorem compare_eq_lt (a b : TableName) : compare a b = .lt ↔
    a.catalog.text < b.catalog.text ∨ (a.catalog = b.catalog ∧ a.name < b.name) := by
  have hcatalog : compare a.catalog b.catalog = .eq ↔ a.catalog = b.catalog :=
    ⟨Std.LawfulEqOrd.eq_of_compare, fun h => h ▸ Std.ReflCmp.compare_self⟩
  show (compare a.catalog b.catalog).then (compare a.name b.name) = .lt ↔ _
  rw [Ordering.then_eq_lt, hcatalog]
  exact or_congr compareOfLessAndEq_eq_lt (and_congr_right fun _ => compareOfLessAndEq_eq_lt)

/-- The qualified form, `catalog.table`. -/
def text (t : TableName) : String := t.catalog.text ++ "." ++ t.name

end TableName

/-- A column of a table. -/
structure ColumnName where
  table : TableName
  name : String
deriving DecidableEq

namespace ColumnName

instance : Inhabited ColumnName := ⟨⟨default, ""⟩⟩

instance : Ord ColumnName :=
  ⟨compareLex (compareOn ColumnName.table) (compareOn ColumnName.name)⟩

instance : Std.TransOrd ColumnName :=
  inferInstanceAs
    (Std.TransCmp (compareLex (compareOn ColumnName.table) (compareOn ColumnName.name)))

instance : Std.LawfulEqOrd ColumnName where
  eq_of_compare {a b} h := by
    obtain ⟨h₁, h₂⟩ := Ordering.then_eq_eq.1 h
    have h₁ : a.table = b.table := Std.LawfulEqOrd.eq_of_compare (α := TableName) h₁
    have h₂ : a.name = b.name := Std.LawfulEqOrd.eq_of_compare (α := String) h₂
    cases a; cases b; simp_all

/-- The qualified form, `catalog.table.column`. -/
def text (c : ColumnName) : String := c.table.text ++ "." ++ c.name

end ColumnName

/-- The type of a column. -/
inductive ColumnType where
  | int
  | bigInt
  | float
  | double
  | boolean
  | text
  | varchar
deriving DecidableEq

/-- The keyword of a column type. -/
def ColumnType.keyword : ColumnType → String
  | .int => "INT"
  | .bigInt => "BIGINT"
  | .float => "FLOAT"
  | .double => "DOUBLE"
  | .boolean => "BOOLEAN"
  | .text => "TEXT"
  | .varchar => "VARCHAR"

end Federation
