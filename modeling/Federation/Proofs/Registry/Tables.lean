import Federation.Proofs.Registry.Attachments

/-!
# Where Tables Are

A catalog answers for a table with the cluster under which it was registered last. No
other call moves a table: connectors come and go on clusters, and what they serve is
recorded elsewhere.

Calls are given latest first.

## Main definitions

* `Catalog.Change.location?`: What a call makes of the cluster of a table.
* `Catalog.locatedAt?`: Where calls leave a table.

## Theorems

* `tables_perform`: What a call does to the record of a table.
* `clusterOf_after`: Where a table is after any calls.
-/

namespace Federation

namespace Catalog

/-- What a call makes of the cluster of a table. -/
def Change.location? (table : TableName) (was : Option ClusterName) :
    Catalog.Change → Option ClusterName
  | .registerTable registered cluster => if registered = table then some cluster else was
  | _ => was

/-- Where calls leave a table. -/
def locatedAt? (table : TableName) : List Change → Option ClusterName
  | [] => none
  | call :: past => call.location? table (locatedAt? table past)

-- What is done for each of several clusters leaves the tables alone if one step does.
theorem tables_foldl (f : Catalog → ClusterName → Catalog)
    (hf : ∀ c cluster, (f c cluster).tables = c.tables) (clusters : List ClusterName)
    (c : Catalog) : (clusters.foldl f c).tables = c.tables := by
  induction clusters generalizing c with
  | nil => rfl
  | cons cluster rest ih => exact (ih (f c cluster)).trans (hf c cluster)

-- A call about connectors leaves the tables alone.
theorem tables_register (c : Catalog) (d : Connector) : (c.register d).tables = c.tables :=
  tables_foldl (fun c cluster => c.listAttachment d.name cluster) (fun _ _ => rfl) _ c

theorem tables_attach (c c' : Catalog) (cluster : ClusterName) (name : ConnectorName)
    (h : c.attach cluster name = .ok c') : c'.tables = c.tables := by
  unfold attach at h
  cases hd : c.connectors.get? name with
  | none =>
      rw [hd] at h
      cases h
  | some d =>
      rw [hd] at h
      cases h
      rfl

theorem tables_detach (c c' : Catalog) (cluster : ClusterName) (name : ConnectorName)
    (h : c.detach cluster name = .ok c') : c'.tables = c.tables := by
  unfold detach at h
  cases hd : c.connectors.get? name with
  | none =>
      rw [hd] at h
      cases h
  | some d =>
      rw [hd] at h
      cases h
      rfl

theorem tables_remove (c : Catalog) (gone : ConnectorName) :
    (c.remove gone).2.tables = c.tables := by
  unfold remove
  cases c.connectors.get? gone with
  | none => rfl
  | some d =>
      exact tables_foldl (fun c cluster => c.strikeAttachment gone cluster) (fun _ _ => rfl) _ c

/-- What a call does to the record of a table. -/
theorem tables_perform (c c' : Catalog) (call : Change) (h : c.perform call = .ok c')
    (table : TableName) :
    c'.tables.get? table = call.location? table (c.tables.get? table) := by
  cases call with
  | register d =>
      cases h
      rw [tables_register]
      rfl
  | attach cluster name =>
      rw [tables_attach c c' cluster name h]
      rfl
  | detach cluster name =>
      rw [tables_detach c c' cluster name h]
      rfl
  | remove gone =>
      cases h
      rw [tables_remove]
      rfl
  | registerTable registered cluster =>
      cases h
      rw [registerTable, SortedMap.get?_insert, Change.location?]
      simp only [eq_comm]

/-- Where a table is after any calls. -/
theorem clusterOf_after (calls : List Change) (table : TableName) :
    (after calls).registry.clusterOf table = locatedAt? table calls := by
  induction calls with
  | nil => rfl
  | cons call past ih =>
      rw [after]
      cases h : (after past).perform call with
      | ok c =>
          change c.tables.get? table = _
          rw [tables_perform _ c call h, locatedAt?, ← ih]
          rfl
      | error e =>
          rcases (perform_eq_error _ call e).mp h with ⟨cluster, name, rfl | rfl, _⟩
          · exact ih
          · exact ih

end Catalog

end Federation
