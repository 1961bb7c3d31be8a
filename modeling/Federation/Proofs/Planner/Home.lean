import Federation.Proofs.Planner.Outcome

/-!
# Scans Away from Home

Connectors are looked for by table, and of several scans of one table the first
decides on which cluster. A scan is therefore sent to a connector that is listed,
under its name, for the *home* of its table, whichever way the connector came to
be assigned. For a workflow that reads each table on one cluster this is the
cluster of the scan.

For any other workflow it is not. If every cluster has a connector of its own that
can execute anything, the workflow is planned, and the scans of a table away from
its home are sent to the connector of the home, which their own clusters do not
list.

## Main definitions

* `Plan.connectorAt?`: The connector that a scan is sent to.
* `OnOwnClusters`: Every scan is sent to a connector of its own cluster.

## Theorems

* `connectorAt?_home`: A scan is sent to a connector of the home of its table.
* `away_from_home`: How a scan comes to a connector that its cluster does not list.
* `own_clusters_iff`: When every scan is sent to a connector of its own cluster.
* `users_of_nowhere`: A scan that is sent to the connector of another cluster.
-/

namespace Federation

/-- The connector that the scan of a number is sent to. -/
def Plan.connectorAt? (p : Plan) (id : Nat) : Option Connector :=
  match p with
  | .single p => some p.connector
  | .multi p => (p.branches.find? fun b => b.branch.initial == id).map AssignedBranch.connector
  | .storage _ => none

/-- Whether every scan is sent to a connector whose name is listed for the cluster of
    the scan. -/
def OnOwnClusters (s : Snapshot) (w : Workflow) (p : Plan) : Prop :=
  ∀ id table cluster columns, w.step? id = some (.scan table cluster columns) →
    ∃ c, p.connectorAt? id = some c ∧ ∃ d ∈ s.connectorsOf cluster, d.name = c.name

-- The branch that starts at a scan is found by the scan.
theorem find?_initial (s : Snapshot) (w : Workflow) (assigned : List AssignedBranch)
    (h : assigned.map AssignedBranch.branch = w.scans.map (wholeBranch s w)) (t : Nat)
    (ht : t ∈ w.scans) :
    ∃ a ∈ assigned, assigned.find? (fun b => b.branch.initial == t) = some a ∧
      a.branch = wholeBranch s w t := by
  have hmem := ht
  rw [← assigned_initials s w assigned h] at hmem
  rcases List.mem_map.mp hmem with ⟨b, hb, hinitial⟩
  have hsome : (assigned.find? fun b => b.branch.initial == t).isSome = true := by
    rw [List.find?_isSome]
    exact ⟨b, hb, beq_iff_eq.mpr hinitial⟩
  rcases Option.isSome_iff_exists.mp hsome with ⟨a, ha⟩
  have hin := List.mem_of_find?_eq_some ha
  refine ⟨a, hin, ha, ?_⟩
  -- A branch is the stretch of the scan it starts at.
  rcases mem_assigned s w assigned h a hin with ⟨u, _, hu⟩
  have hut := List.find?_some (p := fun b : AssignedBranch => b.branch.initial == t) ha
  rw [hu, beq_iff_eq] at hut
  rw [hu, ← hut]
  rfl

/-- A scan is sent to a connector whose name is listed for the home of its table. -/
theorem connectorAt?_home (config : PlannerConfig) (query : QueryId) (w : Workflow)
    (s : Snapshot) (p : Plan) (hp : planSelect config query w s = .ok p) :
    ∀ t ∈ w.scans, ∃ c, p.connectorAt? t = some c ∧
      ∃ d ∈ s.connectorsOf (w.home t), d.name = c.name := by
  rcases Workflow.exists_root w with ⟨root, hroot⟩
  rcases (planSelect_eq_ok config query w s root hroot p).mp hp with ⟨_, hplanned⟩
  intro t ht
  cases hplanned with
  | whole f c hf hchoice =>
      have hstart : t ∈ w.starts := Workflow.mem_starts_of_scan w t ht
      have hc := ((choose_fragment f c).mp hchoice).2.1
      rcases (part_covers s w root hroot.mem f hf c hc).2 t hstart
        (Workflow.feeds_root w root hroot t hstart) with ⟨d, hname, hd⟩
      exact ⟨c, rfl, d, hd.home ht, hname⟩
  | split settled assigned stages _ _ hassigned _ _ =>
      rcases assigned_branches settled _ assigned hassigned with ⟨hbranches, hconnectors⟩
      rcases find?_initial s w assigned hbranches t ht with ⟨a, ha, hfind, hbranch⟩
      have hc := hconnectors a ha
      rw [hbranch] at hc
      refine ⟨a.connector, ?_, a.connector, (covers_scan s w t _ hc).home ht, rfl⟩
      show (assigned.find? _).map AssignedBranch.connector = _
      rw [hfind]
      rfl

-- Every step has an alternative, so whoever can execute anything can run it.
theorem canRunAll_universal (w : Workflow) (t : Nat) (ht : t ∈ w.starts)
    (name : ConnectorName) : w.canRunAll (w.stretch t) (.universal name) = true := by
  rw [Workflow.canRunAll_iff]
  intro id hid
  have hlt := (Workflow.le_of_mem_stretch w t (Workflow.starts_lt w t ht) id hid).2
  rcases Graph.exists_step _ id hlt with ⟨step, hstep⟩
  have hadmitted := w.sound.admitted step (List.mem_of_getElem? hstep)
  refine (Workflow.canRunAt_iff w _ id).mpr ⟨step, hstep, (canRun_iff _ step).mpr ?_⟩
  have hne : step.alternatives ≠ [] := by
    cases step with
    | scan _ _ _ => exact List.cons_ne_nil _ _
    | filter _ _ => exact List.cons_ne_nil _ _
    | projection _ window => cases window <;> exact List.cons_ne_nil _ _
    | join _ alternatives =>
        intro hnil
        have hnone : alternatives = [] := hnil
        rw [hnone] at hadmitted
        cases hadmitted
  rcases List.exists_mem_of_ne_nil _ hne with ⟨a, ha⟩
  exact ⟨a, ha, supports_universal name a⟩

-- The clusters of a workflow are those of its scans.
theorem mem_clusters (w : Workflow) (cluster : ClusterName) :
    cluster ∈ w.clusters ↔
      ∃ id table columns, w.step? id = some (.scan table cluster columns) := by
  unfold Workflow.clusters Workflow.initialSteps
  rw [mem_ascending, List.mem_filterMap]
  constructor
  · rintro ⟨id, hid, hcluster⟩
    rcases (Graph.mem_scans _ id).mp hid with ⟨table, k, columns, h⟩
    rw [h] at hcluster
    cases hcluster
    exact ⟨id, table, columns, h⟩
  · rintro ⟨id, table, columns, h⟩
    refine ⟨id, (Graph.mem_scans _ id).mpr ⟨table, cluster, columns, h⟩, ?_⟩
    rw [h]
    rfl

-- Where every cluster lists one connector that can execute anything, a workflow is
-- planned.
theorem universal_planned (query : QueryId) (w : Workflow) (name : ClusterName → ConnectorName)
    (s : Snapshot)
    (hs : (Snapshot.capture (.universal fun k => [name k]) w.clusters []).value = .ok s) :
    (∀ k ∈ w.clusters, s.connectorsOf k = [.universal (name k)]) ∧
      ∃ p, planSelect ⟨.coordinator, w.joins.length⟩ query w s = .ok p := by
  rcases capture_connectorsOf _ w.clusters [] s hs with ⟨wanted, hwanted, hlist⟩
  have hall : ∀ k ∈ w.clusters, s.connectorsOf k = [.universal (name k)] := fun k hk => by
    rw [hlist k, if_pos (hwanted k hk), known_universal]
    rfl
  refine ⟨hall, planSelect_succeeds _ query w s (capture_universal _ _ _ s hs) ?_ rfl
    (Nat.le_refl _)⟩
  intro t ht
  rcases (Graph.mem_scans _ t).mp ht with ⟨table, cluster, columns, h⟩
  rcases (Workflow.home_spec w t table cluster columns h).2 with ⟨first, others, hfirst⟩
  have hhome := hall (w.home t) ((mem_clusters w _).mpr ⟨first, table, others, hfirst⟩)
  refine List.ne_nil_of_mem (List.mem_filter.mpr ⟨?_, canRunAll_universal w t
    (Workflow.mem_starts_of_scan w t ht) (name (w.home t))⟩)
  rw [hhome]
  exact List.mem_singleton_self _

/-- A scan away from home is sent to a connector of another cluster, where its own has
    a connector that no other has. -/
theorem away_from_home (w : Workflow) (t : Nat) (table : TableName) (cluster : ClusterName)
    (columns : List ColumnName) (h : w.step? t = some (.scan table cluster columns))
    (haway : cluster ≠ w.home t) :
    ∃ s p, (Snapshot.capture (.universal fun k => [if k = cluster then ⟨"own"⟩ else ⟨"other"⟩])
        w.clusters []).value = .ok s ∧
      planSelect ⟨.coordinator, w.joins.length⟩ ⟨"q"⟩ w s = .ok p ∧ ¬OnOwnClusters s w p := by
  rcases capture_clusters
    (.universal fun k => [if k = cluster then ⟨"own"⟩ else ⟨"other"⟩]) w.clusters with ⟨s, hs⟩
  rcases universal_planned ⟨"q"⟩ w (fun k => if k = cluster then ⟨"own"⟩ else ⟨"other"⟩) s hs with
    ⟨hlist, p, hp⟩
  have hscan : t ∈ w.scans := (Graph.mem_scans _ t).mpr ⟨table, cluster, columns, h⟩
  rcases (Workflow.home_spec w t table cluster columns h).2 with ⟨first, others, hfirst⟩
  refine ⟨s, p, hs, hp, fun hown => ?_⟩
  rcases hown t table cluster columns h with ⟨c, hc, d, hd, hdc⟩
  rcases connectorAt?_home _ _ w s p hp t hscan with ⟨c', hc', e, he, hec⟩
  rw [hc, Option.some.injEq] at hc'
  rw [hlist cluster ((mem_clusters w _).mpr ⟨t, table, columns, h⟩), List.mem_singleton] at hd
  rw [hlist (w.home t) ((mem_clusters w _).mpr ⟨first, table, others, hfirst⟩),
    List.mem_singleton] at he
  -- The name would be that of both.
  have hname : e.name = d.name := by rw [hec, ← hc', hdc]
  rw [hd, he, if_pos rfl, if_neg (Ne.symm haway)] at hname
  exact absurd hname (by decide)

/-- Every scan is sent to a connector of its own cluster, whatever the registry and the
    settings, exactly if no table is scanned on two clusters. -/
theorem own_clusters_iff (w : Workflow) :
    (∀ (r : Registry) (clusters : List ClusterName) (tables : List TableName) (s : Snapshot)
        (config : PlannerConfig) (query : QueryId) (p : Plan),
        (Snapshot.capture r clusters tables).value = .ok s →
          planSelect config query w s = .ok p → OnOwnClusters s w p) ↔ w.OneHome := by
  constructor
  · intro hown
    rw [Workflow.oneHome_iff]
    intro t ht
    rcases (Graph.mem_scans _ t).mp ht with ⟨table, cluster, columns, h⟩
    by_cases haway : cluster = w.home t
    · rw [h, ← haway]
      rfl
    · rcases away_from_home w t table cluster columns h haway with ⟨s, p, hs, hp, hnot⟩
      exact absurd (hown _ _ _ s _ _ p hs hp) hnot
  · intro hhome r clusters tables s config query p _ hp id table cluster columns h
    have hscan : id ∈ w.scans := (Graph.mem_scans _ id).mpr ⟨table, cluster, columns, h⟩
    rcases connectorAt?_home config query w s p hp id hscan with ⟨c, hc, d, hd, hname⟩
    rw [Workflow.home_eq w hhome id table cluster columns h] at hd
    exact ⟨c, hc, d, hd, hname⟩

/-- The users of one cluster, joined with the users of another. -/
def usersTwice : Workflow where
  steps :=
    [.scan ⟨⟨"shop"⟩, "users"⟩ ⟨"east"⟩ [], .scan ⟨⟨"shop"⟩, "users"⟩ ⟨"west"⟩ [],
      .join ⟨.boolean true, .eq, .boolean true⟩ Capability.joinVariants]
  links := [⟨0, 2⟩, ⟨1, 2⟩]
  terminal := 2
  sound := (Graph.sound_iff_fault? _).mpr (by decide)
  sinks_eq := by decide

/-- The users of a cluster without connectors are read by a connector of another. -/
theorem users_of_nowhere :
    ∃ s p, (Snapshot.capture (.universal fun k => if k = ⟨"east"⟩ then [⟨"a"⟩] else [])
        usersTwice.clusters []).value = .ok s ∧
      planSelect .default ⟨"q"⟩ usersTwice s = .ok p ∧ s.connectorsOf ⟨"west"⟩ = [] ∧
        ¬OnOwnClusters s usersTwice p := by
  refine ⟨eastAndWest [⟨"a"⟩] [], .single ⟨⟨"q"⟩, .universal ⟨"a"⟩, [0, 1], 2, [0, 1, 2], usersTwice⟩,
    rfl, rfl, rfl, fun hown => ?_⟩
  rcases hown 1 ⟨⟨"shop"⟩, "users"⟩ ⟨"west"⟩ [] rfl with ⟨_, _, d, hd, _⟩
  exact absurd hd List.not_mem_nil

end Federation
