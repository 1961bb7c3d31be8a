import Federation.Workflow.Error

/-!
# Insertions

A write names its table, the columns it sets and their values, side by side. An
insertion that was not built here may have columns and values that do not pair
up, so it is checked again before it is planned.

## Main definitions

* `Insertion`: A write.
* `Insertion.fault?`, `Insertion.of`: Pairing columns with values.
* `Insertion.required`: What a connector must declare to execute it.

## Theorems

* `Insertion.assignments_columns`, `Insertion.assignments_values`: Nothing is dropped.
-/

namespace Federation

/-- A column and the value it is set to. -/
structure Assignment where
  column : ColumnName
  value : Selector

/-- A row to be written to a table. -/
structure Insertion where
  table : TableName
  columns : List ColumnName
  values : List Selector
  ifNotExists : Bool

namespace Insertion

/-- Every column needs a value and every value a column. -/
def fault? (i : Insertion) : Option WorkflowError :=
  if i.columns.length = i.values.length then none
  else some (.arityMismatch i.columns.length i.values.length)

/-- The insertion of columns and values that pair up. -/
def of (table : TableName) (columns : List ColumnName) (values : List Selector)
    (ifNotExists : Bool) : Except WorkflowError Insertion :=
  let i : Insertion := ⟨table, columns, values, ifNotExists⟩
  match i.fault? with
  | some fault => .error fault
  | none => .ok i

/-- The capability that executes the insertion. -/
def required (i : Insertion) : Capability :=
  if i.ifNotExists then .insertIfNotExists else .insert

/-- Columns with their values, in the order of the statement. -/
def assignments (i : Insertion) : List Assignment := i.columns.zipWith Assignment.mk i.values

/-- Nothing is wrong where there are as many values as columns. -/
theorem fault?_eq_none (i : Insertion) :
    i.fault? = none ↔ i.columns.length = i.values.length := by
  unfold fault?
  by_cases h : i.columns.length = i.values.length
  · rw [if_pos h]
    exact iff_of_true rfl h
  · rw [if_neg h]
    exact iff_of_false (fun hnone => nomatch hnone) h

theorem assignments_eq_zip (i : Insertion) :
    i.assignments = (i.columns.zip i.values).map fun p => ⟨p.1, p.2⟩ := by
  rw [List.map_zip_eq_zipWith]
  rfl

/-- Columns and values that pair up stand side by side: no column is dropped, -/
theorem assignments_columns (i : Insertion) (h : i.columns.length = i.values.length) :
    i.assignments.map Assignment.column = i.columns := by
  rw [assignments_eq_zip, List.map_map]
  exact List.map_fst_zip (Nat.le_of_eq h)

/-- and no value. -/
theorem assignments_values (i : Insertion) (h : i.columns.length = i.values.length) :
    i.assignments.map Assignment.value = i.values := by
  rw [assignments_eq_zip, List.map_map]
  exact List.map_snd_zip (Nat.le_of_eq h.symm)

end Insertion

end Federation
