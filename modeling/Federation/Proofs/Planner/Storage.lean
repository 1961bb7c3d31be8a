import Federation.Proofs.Planner.Unambiguous
import Federation.Proofs.Registry.Tables

/-!
# What Becomes of an Insertion

An insertion that is planned on a catalog goes to a connector of the cluster that holds the
table now, or is refused. All that decides between the two can be read off the calls that
were made to the catalog: where the table was registered last, which attachments to that
cluster last, and what the connectors declare that were registered under these names. The
connectors that may write are told apart by their names, and the least of these is taken.

Whether columns and values pair up is looked at first, since nothing else would notice: side
by side, the longer of two lists is cut off.

## Main definitions

* `Writer`: Calls leave a connector on a cluster that may write.
* `StorageOutcome`: What becomes of an insertion.

## Theorems

* `capture_located`: What is captured for a table.
* `writer_iff`: Who may write, by what a catalog lists and by its history.
* `StorageOutcome.unique`: One thing becomes of an insertion.
* `planInsert_outcome`, `plan_outcome`: What becomes of an insertion.
* `storage_decided`: Each outcome has its condition.
* `movedTable_stored`: A table that was moved, and a writer that was detached.
-/

namespace Federation

open Catalog (Change after locatedAt? registeredAs? attachedSince?)

/-! ### The snapshot of a table -/

/-- What is captured for a table: its cluster, and the connectors there. -/
theorem capture_located (r : Registry) (table : TableName) (cluster : ClusterName)
    (h : r.clusterOf table = some cluster) :
    ∃ s, (Snapshot.capture r [] [table]).value = .ok s ∧ s.clusterOf table = some cluster ∧
      s.connectorsOf cluster = r.known cluster := by
  have hlocate : (Snapshot.locate r [table]).value = .ok [(table, cluster)] := by
    rw [locate_cons, h]
    rfl
  have hcapture := capture_value r [] [table]
  rw [hlocate] at hcapture
  have htable : (SortedMap.ofList [(table, cluster)]).get? table = some cluster :=
    (SortedMap.get?_ofList_map (fun _ => cluster) [table] table).trans
      (if_pos List.mem_cons_self)
  refine ⟨_, hcapture, htable, ?_⟩
  unfold Snapshot.connectorsOf
  rw [SortedMap.get?_ofList_map, if_pos]
  · rfl
  · rw [mem_ascending, List.nil_append, SortedMap.mem_values]
    exact ⟨table, htable⟩

theorem capture_unlocated (r : Registry) (table : TableName) (h : r.clusterOf table = none) :
    (Snapshot.capture r [] [table]).value = .error (.unknownTable table) := by
  rw [capture_value, locate_cons, h]
  rfl

/-! ### Who may write -/

/-- Whether calls leave a connector of a name attached to a cluster that declares a
    capability. -/
structure Writer (calls : List Change) (cluster : ClusterName) (capability : Capability)
    (name : ConnectorName) : Prop where
  attached : attachedSince? name cluster calls ≠ none
  declares : ∃ d, registeredAs? name calls = some d ∧ d.supports capability = true

-- What a connector declares does not depend on its clusters.
theorem supports_unattached {c d : Connector} (h : c.unattached = d.unattached)
    (capability : Capability) : c.supports capability = d.supports capability := by
  rw [← c.unattached_supports, h, d.unattached_supports]

/-- Who may write, by what a catalog lists and by its history. -/
theorem writer_iff (calls : List Change) (cluster : ClusterName) (capability : Capability)
    (name : ConnectorName) :
    Writer calls cluster capability name ↔
      ∃ c ∈ (after calls).registry.connectorsOf cluster,
        c.name = name ∧ c.supports capability = true := by
  have hnow := Catalog.attachedNow_after calls cluster
  constructor
  · rintro ⟨hattached, d, hd, hsupports⟩
    rcases List.mem_map.mp ((hnow.current name).mpr hattached) with ⟨c, hc, rfl⟩
    rcases hnow.defined c hc with ⟨e, he, hbare⟩
    rw [hd, Option.some.injEq] at he
    rw [← he] at hbare
    exact ⟨c, hc, rfl, (supports_unattached hbare capability).trans hsupports⟩
  · rintro ⟨c, hc, rfl, hsupports⟩
    rcases hnow.defined c hc with ⟨d, hd, hbare⟩
    refine ⟨(hnow.current _).mp (List.mem_map.mpr ⟨c, hc, rfl⟩), d, hd, ?_⟩
    rw [← supports_unattached hbare capability]
    exact hsupports

/-! ### Outcomes -/

-- Assignments are told apart by their columns and values.
theorem assignments_ext {l m : List Assignment}
    (hcolumns : l.map Assignment.column = m.map Assignment.column)
    (hvalues : l.map Assignment.value = m.map Assignment.value) : l = m := by
  have hzip : ∀ l : List Assignment,
      l = ((l.map Assignment.column).zip (l.map Assignment.value)).map fun p => ⟨p.1, p.2⟩ := by
    intro l
    rw [List.zip_map', List.map_map]
    exact (List.map_id l).symm
  rw [hzip l, hzip m, hcolumns, hvalues]

/-- What becomes of an insertion that is planned on a catalog after calls. -/
inductive StorageOutcome (calls : List Change) (query : QueryId) (i : Insertion) :
    Except PlanningError Plan → Prop
  | malformed (hpaired : i.columns.length ≠ i.values.length) :
      StorageOutcome calls query i (.error ⟨query, .unplanned,
        .malformedStatement (.arityMismatch i.columns.length i.values.length)⟩)
  | unknown (hpaired : i.columns.length = i.values.length)
      (hlocated : locatedAt? i.table calls = none) :
      StorageOutcome calls query i (.error ⟨query, .unplanned, .unknownTable i.table⟩)
  | unwritable (cluster : ClusterName) (hpaired : i.columns.length = i.values.length)
      (hlocated : locatedAt? i.table calls = some cluster)
      (hnone : ∀ name, ¬Writer calls cluster i.required name) :
      StorageOutcome calls query i
        (.error ⟨query, .unplanned, .noWritableConnector i.table cluster i.required⟩)
  | stored (cluster : ClusterName) (c : Connector) (assignments : List Assignment)
      (hpaired : i.columns.length = i.values.length)
      (hlocated : locatedAt? i.table calls = some cluster)
      (hwriter : Writer calls cluster i.required c.name)
      (hleast : ∀ name, Writer calls cluster i.required name → compare c.name name ≠ .gt)
      (hknown : (after calls).connectors.get? c.name = some c)
      (hcolumns : assignments.map Assignment.column = i.columns)
      (hvalues : assignments.map Assignment.value = i.values) :
      StorageOutcome calls query i
        (.ok (.storage ⟨query, cluster, i.table, c, i.required, assignments⟩))

/-- One thing becomes of an insertion. -/
theorem StorageOutcome.unique {calls : List Change} {query : QueryId} {i : Insertion}
    {r r' : Except PlanningError Plan} (h : StorageOutcome calls query i r)
    (h' : StorageOutcome calls query i r') : r = r' := by
  cases h with
  | malformed hdiffer =>
      cases h' with
      | malformed _ => rfl
      | unknown hpaired _ => exact absurd hpaired hdiffer
      | unwritable _ hpaired _ _ => exact absurd hpaired hdiffer
      | stored _ _ _ hpaired _ _ _ _ _ _ => exact absurd hpaired hdiffer
  | unknown hpaired hlocated =>
      cases h' with
      | malformed hdiffer => exact absurd hpaired hdiffer
      | unknown _ _ => rfl
      | unwritable _ _ hlocated' _ => exact nomatch hlocated.symm.trans hlocated'
      | stored _ _ _ _ hlocated' _ _ _ _ _ => exact nomatch hlocated.symm.trans hlocated'
  | unwritable cluster hpaired hlocated hnone =>
      cases h' with
      | malformed hdiffer => exact absurd hpaired hdiffer
      | unknown _ hlocated' => exact nomatch hlocated.symm.trans hlocated'
      | unwritable _ _ hlocated' _ =>
          cases hlocated.symm.trans hlocated'
          rfl
      | stored _ _ _ _ hlocated' hwriter _ _ _ _ =>
          cases hlocated.symm.trans hlocated'
          exact absurd hwriter (hnone _)
  | stored cluster c assignments hpaired hlocated hwriter hleast hknown hcolumns hvalues =>
      cases h' with
      | malformed hdiffer => exact absurd hpaired hdiffer
      | unknown _ hlocated' => exact nomatch hlocated.symm.trans hlocated'
      | unwritable _ _ hlocated' hnone =>
          cases hlocated.symm.trans hlocated'
          exact absurd hwriter (hnone _)
      | stored _ d others _ hlocated' hwriter' hleast' hknown' hcolumns' hvalues' =>
          cases hlocated.symm.trans hlocated'
          have hname := name_antisymm (hleast _ hwriter') (hleast' _ hwriter)
          rw [hname, hknown', Option.some.injEq] at hknown
          rw [hknown, assignments_ext (hcolumns.trans hcolumns'.symm)
            (hvalues.trans hvalues'.symm)]

/-- What becomes of an insertion whose table was captured as a catalog has it. -/
theorem planInsert_outcome (calls : List Change) (query : QueryId) (i : Insertion)
    (cluster : ClusterName) (s : Snapshot) (hpaired : i.columns.length = i.values.length)
    (hlocated : locatedAt? i.table calls = some cluster)
    (hcluster : s.clusterOf i.table = some cluster)
    (hlisted : s.connectorsOf cluster = (after calls).registry.connectorsOf cluster) :
    StorageOutcome calls query i (planInsert query i s) := by
  have hwriter := writer_iff calls cluster i.required
  have hget := Catalog.get?_of_mem_connectorsOf (after calls) (Catalog.consistent_after calls)
    cluster
  have hable : ∀ c, c ∈ (s.connectorsOf cluster).filter (fun c => c.supports i.required) ↔
      c ∈ (after calls).registry.connectorsOf cluster ∧ c.supports i.required = true := fun c => by
    rw [List.mem_filter, hlisted]
  unfold planInsert writers
  rw [hcluster]
  simp only
  cases hfilter : (s.connectorsOf cluster).filter fun c => c.supports i.required with
  | nil =>
      rw [hfilter] at hable
      refine StorageOutcome.unwritable cluster hpaired hlocated fun name hname => ?_
      rcases (hwriter name).mp hname with ⟨c, hc, _, hsupports⟩
      exact absurd ((hable c).mpr ⟨hc, hsupports⟩) List.not_mem_nil
  | cons first others =>
      rw [hfilter] at hable
      -- A name stands for one connector, so the choice cannot fail.
      rcases choose_fragment_exists ⟨first :: others, [i.table], none⟩ (List.cons_ne_nil _ _)
        (List.cons_ne_nil _ _) fun c hc d hd hname => by
          have hc := hget c ((hable c).mp hc).1
          rw [hname, hget d ((hable d).mp hd).1, Option.some.injEq] at hc
          exact hc.symm with ⟨c, hchoice⟩
      rcases (choose_fragment _ c).mp hchoice with ⟨_, hc, hleast, _⟩
      have hchosen : chooseFor i.table (first :: others) = .ok c := hchoice
      have hsupports := (hable c).mp hc
      change StorageOutcome calls query i
        (during query .pathsBuilt (chooseFor i.table (first :: others)) >>= fun connector =>
          pure (.storage ⟨query, cluster, i.table, connector, i.required, i.assignments⟩))
      rw [hchosen]
      refine StorageOutcome.stored cluster c i.assignments hpaired hlocated
        ((hwriter _).mpr ⟨c, hsupports.1, rfl, hsupports.2⟩) (fun name hname => ?_)
        (hget c hsupports.1) (i.assignments_columns hpaired) (i.assignments_values hpaired)
      rcases (hwriter name).mp hname with ⟨d, hd, rfl, hdsupports⟩
      exact hleast d ((hable d).mpr ⟨hd, hdsupports⟩)

/-- What becomes of an insertion that is planned on a catalog after calls. -/
theorem plan_outcome (calls : List Change) (config : PlannerConfig) (query : QueryId)
    (catalog : CatalogName) (i : Insertion) :
    StorageOutcome calls query i
      (plan (after calls).registry config ⟨query, catalog, .insert i⟩).value := by
  have hcluster := Catalog.clusterOf_after calls i.table
  unfold plan
  simp only
  by_cases hpaired : i.columns.length = i.values.length
  · rw [i.fault?_eq_none.mpr hpaired]
    change StorageOutcome calls query i
      (during query .unplanned (Snapshot.capture (after calls).registry [] [i.table]).value
        >>= planInsert query i)
    cases hlocated : locatedAt? i.table calls with
    | none =>
        rw [capture_unlocated _ _ (hcluster.trans hlocated)]
        exact StorageOutcome.unknown hpaired hlocated
    | some cluster =>
        rcases capture_located _ _ cluster (hcluster.trans hlocated) with ⟨s, hs, hs'⟩
        rw [hs]
        rw [known_catalog _ (Catalog.consistent_after calls)] at hs'
        exact planInsert_outcome calls query i cluster s hpaired hlocated hs'.1 hs'.2
  · have hfault : i.fault? = some (.arityMismatch i.columns.length i.values.length) :=
      if_neg hpaired
    rw [hfault]
    exact StorageOutcome.malformed hpaired

/-- After any calls to a catalog, an insertion comes to the outcome that the calls decide,
    and to no other. What a connector has to declare depends on whether the row may be there
    already. -/
theorem storage_decided (calls : List Change) (config : PlannerConfig) (query : QueryId)
    (catalog : CatalogName) (i : Insertion) :
    i.required = (if i.ifNotExists then .insertIfNotExists else .insert) ∧
      ∀ r, (plan (after calls).registry config ⟨query, catalog, .insert i⟩).value = r ↔
        StorageOutcome calls query i r :=
  ⟨rfl, fun _ => ⟨fun h => h ▸ plan_outcome calls config query catalog i,
    (plan_outcome calls config query catalog i).unique⟩⟩

/-- A table that is moved to another cluster, where one of three writers was detached. -/
def movedTable : List Change :=
  let writer (name : String) : Connector :=
    ⟨⟨name⟩, .ofList [.insert], [⟨"west"⟩], ⟨name⟩⟩
  [.registerTable ⟨⟨"shop"⟩, "users"⟩ ⟨"west"⟩, .detach ⟨"west"⟩ ⟨"a"⟩, .register (writer "a"),
    .register (writer "c"), .register (writer "b"),
    .registerTable ⟨⟨"shop"⟩, "users"⟩ ⟨"east"⟩]

/-- A row of one column. -/
def oneValue : Insertion :=
  ⟨⟨⟨"shop"⟩, "users"⟩, [⟨⟨⟨"shop"⟩, "users"⟩, "active"⟩], [.boolean true], false⟩

/-- The row goes to the cluster where the table is now, and to the least name there that is
    still attached. -/
theorem movedTable_stored :
    ∃ c assignments, (plan (after movedTable).registry .default
        ⟨⟨"q"⟩, ⟨"shop"⟩, .insert oneValue⟩).value
          = .ok (.storage ⟨⟨"q"⟩, ⟨"west"⟩, ⟨⟨"shop"⟩, "users"⟩, c, .insert, assignments⟩) ∧
      c.name = ⟨"b"⟩ ∧ assignments.length = 1 ∧ Writer movedTable ⟨"west"⟩ .insert ⟨"b"⟩ ∧
        ¬Writer movedTable ⟨"west"⟩ .insert ⟨"a"⟩ := by
  have hdecided := (storage_decided movedTable .default ⟨"q"⟩ ⟨"shop"⟩ oneValue).2
  refine ⟨_, _, rfl, rfl, rfl, ?_⟩
  cases (hdecided _).mp rfl with
  | stored _ _ _ _ _ hwriter hleast _ _ _ =>
      exact ⟨hwriter, fun ha => hleast _ ha (by decide)⟩

end Federation
