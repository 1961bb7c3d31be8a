import Federation.Proofs.Planner.Coverage

/-!
# Branches in Full

Branches can be planned if and only if each scan has a connector that can run its
whole stretch, and then every branch is the stretch of its scan together with all
the connectors that can run it, taken from the cluster on which its table is read.

That cluster is the *home* of the table, the one of its first scan. Candidates are
kept by table, so a later scan of the same table finds those of the first,
wherever it reads itself.

## Main definitions

* `home`: The cluster of the first scan of the table that a step scans.
* `branchConnectors`: The connectors that can run the stretch of a scan.
* `wholeBranch`: The stretch of a scan as a branch.

## Theorems

* `oneHome_iff`: Whether every table is read at home.
* `get?_candidates`: The candidates of a table.
* `branchOf_without_gap`: The branch of a scan, if it is not cut short.
* `branchesOf_eq_ok`: When branches can be planned, and which they are.
-/

namespace Federation

namespace Workflow

/-- The table that a step scans. -/
def tableAt (w : Workflow) (id : Nat) : TableName :=
  ((w.step? id).bind Step.scannedTable?).getD default

/-- The cluster of the first of several steps that scans a table. -/
def homeAmong? (w : Workflow) (table : TableName) (ids : List Nat) : Option ClusterName :=
  ids.findSome? fun id =>
    match w.step? id with
    | some (.scan name cluster _) => if table = name then some cluster else none
    | _ => none

/-- The cluster of the first scan of a table. -/
def home? (w : Workflow) (table : TableName) : Option ClusterName := w.homeAmong? table w.scans

/-- The cluster of the first scan of the table that a step scans. -/
def home (w : Workflow) (id : Nat) : ClusterName := (w.home? (w.tableAt id)).getD default

/-- Whether a table is never scanned on two clusters. -/
def OneHome (w : Workflow) : Prop :=
  ∀ a b table cluster other columns others,
    w.step? a = some (.scan table cluster columns) →
      w.step? b = some (.scan table other others) → cluster = other

theorem tableAt_of_scan (w : Workflow) (id : Nat) (table : TableName) (cluster : ClusterName)
    (columns : List ColumnName) (h : w.step? id = some (.scan table cluster columns)) :
    w.tableAt id = table := by
  unfold tableAt
  rw [h]
  rfl

-- The first scan of a table that is scanned is one of its scans.
theorem home_spec (w : Workflow) (id : Nat) (table : TableName) (cluster : ClusterName)
    (columns : List ColumnName) (h : w.step? id = some (.scan table cluster columns)) :
    w.home? table = some (w.home id) ∧
      ∃ first others, w.step? first = some (.scan table (w.home id) others) := by
  have hscan : id ∈ w.scans := (Graph.mem_scans _ id).mpr ⟨table, cluster, columns, h⟩
  have hsome : (w.home? table).isSome = true := by
    unfold home? homeAmong?
    rw [List.findSome?_isSome_iff]
    exact ⟨id, hscan, by simp only [h, if_true, Option.isSome_some]⟩
  rcases Option.isSome_iff_exists.mp hsome with ⟨k, hk⟩
  have hhome : w.home id = k := by
    unfold home
    rw [tableAt_of_scan w id table cluster columns h, hk]
    rfl
  rw [hhome]
  refine ⟨hk, ?_⟩
  rcases List.exists_of_findSome?_eq_some hk with ⟨first, _, hfirst⟩
  -- The step that was found is a scan of this table, on this cluster.
  cases hstep : w.step? first with
  | none => rw [hstep] at hfirst; cases hfirst
  | some step =>
      rw [hstep] at hfirst
      cases step with
      | scan name k' others =>
          simp only at hfirst
          by_cases hname : table = name
          · rw [if_pos hname, Option.some.injEq] at hfirst
            exact ⟨first, others, by rw [hname, ← hfirst]; exact hstep⟩
          · rw [if_neg hname] at hfirst
            cases hfirst
      | filter _ _ => cases hfirst
      | projection _ _ => cases hfirst
      | join _ _ => cases hfirst

-- A table that is never scanned on two clusters is at home on the cluster of each
-- of its scans.
theorem home_eq (w : Workflow) (hone : w.OneHome) (id : Nat) (table : TableName)
    (cluster : ClusterName) (columns : List ColumnName)
    (h : w.step? id = some (.scan table cluster columns)) : w.home id = cluster := by
  rcases (home_spec w id table cluster columns h).2 with ⟨first, others, hfirst⟩
  exact hone first id table _ _ others columns hfirst h

/-- A table is never scanned on two clusters exactly if each scan reads at home. -/
theorem oneHome_iff (w : Workflow) :
    w.OneHome ↔ ∀ id ∈ w.scans, (w.step? id).bind Step.scannedCluster? = some (w.home id) := by
  constructor
  · intro hone id hid
    rcases (Graph.mem_scans _ id).mp hid with ⟨table, cluster, columns, h⟩
    rw [home_eq w hone id table cluster columns h, h]
    rfl
  · intro hall a b table cluster other columns others ha hb
    have hcluster := hall a ((Graph.mem_scans _ a).mpr ⟨table, cluster, columns, ha⟩)
    have hother := hall b ((Graph.mem_scans _ b).mpr ⟨table, other, others, hb⟩)
    -- Scans of one table have one home.
    have hhome : w.home a = w.home b := by
      unfold home
      rw [tableAt_of_scan w a table cluster columns ha, tableAt_of_scan w b table other others hb]
    rw [ha, hhome] at hcluster
    rw [hb] at hother
    exact Option.some.inj (hcluster.trans hother.symm)

instance (w : Workflow) : Decidable w.OneHome := decidable_of_iff _ (oneHome_iff w).symm

end Workflow

-- Whoever can scan at all can scan any table.
theorem ableTo_scan (table : TableName) (cluster : ClusterName) (columns : List ColumnName)
    (connectors : List Connector) :
    ableTo (.scan table cluster columns) connectors
      = connectors.filter fun c => c.supports .scan := by
  unfold ableTo
  refine List.filter_congr fun c _ => ?_
  rw [Bool.eq_iff_iff, canRun_iff]
  exact ⟨fun ⟨a, ha, hs⟩ => List.mem_singleton.mp ha ▸ hs,
    fun hs => ⟨.scan, List.mem_singleton_self _, hs⟩⟩

/-- The candidates of a table are those of the cluster of its first scan. -/
theorem get?_candidates (s : Snapshot) (w : Workflow) (table : TableName) :
    (candidates s w).get? table
      = (w.home? table).map fun cluster =>
          (s.connectorsOf cluster).filter fun c => c.supports .scan := by
  unfold candidates Workflow.home? Workflow.initialSteps
  -- A table that has candidates keeps them whatever scans are still to come.
  suffices h : ∀ (ids : List Nat) (found : Candidates),
      (ids.foldl
        (fun found id =>
          match w.step? id with
          | some (.scan table cluster columns) =>
            found.insertIfNew table
              (ableTo (.scan table cluster columns) (s.connectorsOf cluster))
          | _ => found)
        found).get? table
        = (found.get? table).or ((w.homeAmong? table ids).map fun cluster =>
            (s.connectorsOf cluster).filter fun c => c.supports .scan) from h w.scans ∅
  intro ids
  induction ids with
  | nil => intro found; exact (Option.or_none).symm
  | cons id rest ih =>
      intro found
      rw [List.foldl_cons, ih]
      unfold Workflow.homeAmong?
      rw [List.findSome?_cons]
      cases hstep : w.step? id with
      | none => rfl
      | some step =>
          cases step with
          | scan name cluster columns =>
              simp only
              rw [SortedMap.get?_insertIfNew, ableTo_scan, Option.or_assoc]
              by_cases hname : table = name
              · rw [if_pos hname, if_pos hname]
                rfl
              · rw [if_neg hname, if_neg hname]
                rfl
          | filter _ _ => rfl
          | projection _ _ => rfl
          | join _ _ => rfl

/-- The connectors that can run the stretch of a scan. -/
def branchConnectors (s : Snapshot) (w : Workflow) (id : Nat) : List Connector :=
  (s.connectorsOf (w.home id)).filter (w.canRunAll (w.stretch id))

/-- The stretch of a scan as a branch. -/
def wholeBranch (s : Snapshot) (w : Workflow) (id : Nat) : Branch :=
  ⟨w.tableAt id, id, w.stretchEnd id, w.stretch id, branchConnectors s w id, w.downstream id⟩

-- A branch has no gap if it leads to a join or ends at the terminal.
theorem gap?_eq_none (w : Workflow) (b : Branch) :
    b.gap? w = none ↔ b.next.all w.isJoinAt = true := by
  unfold Branch.gap?
  cases b.next with
  | none => exact ⟨fun _ => rfl, fun _ => rfl⟩
  | some next =>
      simp only [Option.all_some]
      by_cases hjoin : w.isJoinAt next = true
      · rw [if_pos hjoin]
        exact ⟨fun _ => hjoin, fun _ => rfl⟩
      · rw [if_neg hjoin]
        exact ⟨fun h => (nomatch h), fun h => absurd h hjoin⟩

/-- A branch that is not cut short is the stretch of its scan, with the candidates
    that can run it. -/
theorem branchOf_without_gap (w : Workflow) (id : Nat) (table : TableName)
    (cluster : ClusterName) (columns : List ColumnName)
    (h : w.step? id = some (.scan table cluster columns)) (found : List Connector) (b : Branch) :
    (Branch.of w id found = .ok b ∧ b.gap? w = none) ↔
      found.filter (w.canRunAll (w.stretch id)) ≠ [] ∧
        b = ⟨table, id, w.stretchEnd id, w.stretch id,
          found.filter (w.canRunAll (w.stretch id)), w.downstream id⟩ := by
  have hid := Graph.step?_eq_some_lt h
  -- Narrowing to the scan first and then to the rest is narrowing to the stretch.
  have hfilter : (ableTo (.scan table cluster columns) found).filter
      (w.canRunAll (w.segment (w.next? id)).steps)
      = found.filter (w.canRunAll (w.stretch id)) := by
    rw [Workflow.ableTo_eq_filter w id _ h]
    exact Workflow.filter_canRunAll_cons w id _ found
  rw [← hfilter]
  unfold Branch.of
  rw [h]
  simp only
  cases hrun : ableTo (.scan table cluster columns) found with
  | nil =>
      constructor
      · rintro ⟨hok, _⟩
        cases hok
      · rintro ⟨hne, _⟩
        exact absurd rfl hne
  | cons c running =>
      have hjoin := Workflow.reach_all_isJoinAt w id hid (c :: running) (List.cons_ne_nil _ _)
      constructor
      · rintro ⟨hok, hgap⟩
        cases hok
        have hne := hjoin.mp ((gap?_eq_none w _).mp hgap)
        rw [Workflow.reach_whole w id _ hne]
        exact ⟨hne, rfl⟩
      · rintro ⟨hne, rfl⟩
        refine ⟨?_, (gap?_eq_none w _).mpr (Workflow.downstream_all_isJoinAt w id hid)⟩
        simp only [Workflow.reach_whole w id _ hne]
        rfl

-- The candidates of a scan come from the home of its table.
theorem candidates_of_scan (s : Snapshot) (w : Workflow) (id : Nat) (table : TableName)
    (cluster : ClusterName) (columns : List ColumnName)
    (h : w.step? id = some (.scan table cluster columns)) :
    (((w.step? id).bind Step.scannedTable?).bind (candidates s w).get?).getD []
      = (s.connectorsOf (w.home id)).filter fun c => c.supports .scan := by
  rw [h, Option.bind_some]
  show ((candidates s w).get? table).getD [] = _
  rw [get?_candidates, (Workflow.home_spec w id table cluster columns h).1]
  rfl

-- Connectors that can run a stretch can scan, if a scan starts it.
theorem filter_supports_scan (w : Workflow) (id : Nat) (table : TableName)
    (cluster : ClusterName) (columns : List ColumnName)
    (h : w.step? id = some (.scan table cluster columns)) (connectors : List Connector) :
    (connectors.filter fun c => c.supports .scan).filter (w.canRunAll (w.stretch id))
      = connectors.filter (w.canRunAll (w.stretch id)) := by
  rw [← ableTo_scan table cluster columns, ableTo, List.filter_filter]
  refine List.filter_congr fun c _ => ?_
  rw [Bool.and_eq_left_iff_imp, Workflow.canRunAll_iff]
  intro hall
  rcases (Workflow.canRunAt_iff w c id).mp (hall id (Workflow.mem_stretch_self w id)) with
    ⟨step, hstep, hrun⟩
  rw [h, Option.some.injEq] at hstep
  rw [hstep]
  exact hrun

-- The branch of a scan that has one without a gap.
theorem branchOf_scan (s : Snapshot) (w : Workflow) (id : Nat) (hid : id ∈ w.scans) (b : Branch) :
    (Branch.of w id ((((w.step? id).bind Step.scannedTable?).bind (candidates s w).get?).getD [])
        = .ok b ∧ b.gap? w = none) ↔
      branchConnectors s w id ≠ [] ∧ b = wholeBranch s w id := by
  rcases (Graph.mem_scans _ id).mp hid with ⟨table, cluster, columns, h⟩
  rw [candidates_of_scan s w id table cluster columns h,
    branchOf_without_gap w id table cluster columns h,
    filter_supports_scan w id table cluster columns h]
  unfold wholeBranch branchConnectors
  rw [Workflow.tableAt_of_scan w id table cluster columns h]

/-- Branches can be planned if every scan has a connector for its stretch, and are
    then the stretches of the scans. -/
theorem branchesOf_eq_ok (s : Snapshot) (w : Workflow) (branches : List Branch) :
    branchesOf s w = .ok branches ↔
      (∀ id ∈ w.scans, branchConnectors s w id ≠ []) ∧
        branches = w.scans.map (wholeBranch s w) := by
  -- First every scan gives a branch, then no branch may have a gap.
  have hparts : branchesOf s w = .ok branches ↔
      (w.initialSteps.mapM fun id =>
        Branch.of w id ((((w.step? id).bind Step.scannedTable?).bind (candidates s w).get?).getD
          [])) = .ok branches ∧ branches.findSome? (Branch.gap? w) = none := by
    unfold branchesOf
    rw [bind_eq_ok]
    constructor
    · rintro ⟨found, hfound, h⟩
      cases hgap : found.findSome? (Branch.gap? w) with
      | some cause =>
          rw [hgap] at h
          cases h
      | none =>
          rw [hgap] at h
          cases h
          exact ⟨hfound, hgap⟩
    · rintro ⟨hfound, hgap⟩
      refine ⟨branches, hfound, ?_⟩
      rw [hgap]
      rfl
  rw [hparts, List.findSome?_eq_none_iff]
  exact mapM_eq_ok_known _ (fun b => b.gap? w = none) (fun id => branchConnectors s w id ≠ [])
    (wholeBranch s w) w.scans branches (fun id hid b => branchOf_scan s w id hid b)

end Federation
