import Federation.Proofs.Planner.Feasible
import Federation.Proofs.Workflow.Partition

/-!
# Branches That Are Not Covered

A branch is covered if one of the candidates for the table of its scan can run all of it.
If none can, the walk along the branch stops, and where it stops says more than that some
step has no connector. Connectors drop out on the way, so the branch may break at a step
that many candidates could run, if none of them could also run all steps before.

Scans and branches are looked through one after the other. First every table needs a
candidate, and the first scan without one is reported whatever becomes of the branches
before it. Only then are branches looked at in full, and the first that breaks is reported
where it breaks.

## Main definitions

* `candidatesAt`: The candidates for the table of a scan.
* `RunsTo`: A connector that can run a branch up to a step.
* `Uncovered`: A branch that no candidate can run as a whole.
* `BreaksAt`: Where a branch breaks.
* `CoverageFault`: What is reported of branches that are not covered.
* `branchAt`: The branch of a scan, as far as candidates get.

## Theorems

* `BreaksAt.unique`: A branch breaks at one step.
* `exists_break`: A branch that is not covered breaks where the walk stops.
* `gap?_eq_some_iff`: A branch has a gap where it breaks.
* `branchesOf_eq_error_iff`: What is reported if branches are not covered.
* `exists_fault_iff`: Something is reported exactly if some branch is not covered.
-/

namespace Federation

/-- The candidates for the table of a scan. -/
def candidatesAt (s : Snapshot) (w : Workflow) (t : Nat) : List Connector :=
  (((w.step? t).bind Step.scannedTable?).bind (candidates s w).get?).getD []

/-- Whether a connector can run the branch of a scan up to a step. Along a branch numbers
    increase. -/
def RunsTo (w : Workflow) (t v : Nat) (c : Connector) : Prop :=
  ∀ u, w.OnBranch t u → u ≤ v → w.canRunAt c u = true

/-- Whether no candidate can run the branch of a scan as a whole. -/
def Uncovered (s : Snapshot) (w : Workflow) (t : Nat) : Prop :=
  ¬∃ c ∈ candidatesAt s w t, ∀ v, w.OnBranch t v → w.canRunAt c v = true

/-- A branch breaks at its first step such that no candidate can run the branch up to that
    step. -/
structure BreaksAt (s : Snapshot) (w : Workflow) (t v : Nat) : Prop where
  onBranch : w.OnBranch t v
  before : ∀ u, w.OnBranch t u → u < v → ∃ c ∈ candidatesAt s w t, RunsTo w t u c
  broken : ¬∃ c ∈ candidatesAt s w t, RunsTo w t v c

/-- What is reported of branches that are not covered: the first scan whose table has no
    candidate, and if there is none, where the first branch breaks that is not covered. -/
inductive CoverageFault (s : Snapshot) (w : Workflow) :
    TableName → Nat → List Capability → Prop
  | unscannable (before after : List Nat) (t : Nat) (table : TableName) (cluster : ClusterName)
      (columns : List ColumnName) (hsplit : w.initialSteps = before ++ t :: after)
      (hscan : w.step? t = some (.scan table cluster columns))
      (hbefore : ∀ u ∈ before, candidatesAt s w u ≠ []) (hnone : candidatesAt s w t = []) :
      CoverageFault s w table t [.scan]
  | broken (before after : List Nat) (t v : Nat) (table : TableName) (cluster : ClusterName)
      (columns : List ColumnName) (step : Step)
      (hcandidates : ∀ u ∈ w.initialSteps, candidatesAt s w u ≠ [])
      (hsplit : w.initialSteps = before ++ t :: after)
      (hscan : w.step? t = some (.scan table cluster columns))
      (hbefore : ∀ u ∈ before, ¬Uncovered s w u) (hbreak : BreaksAt s w t v)
      (hstep : w.step? v = some step) :
      CoverageFault s w table v step.alternatives

section Break

variable {s : Snapshot} {w : Workflow} {t : Nat}

theorem BreaksAt.unique {u v : Nat} (hu : BreaksAt s w t u) (hv : BreaksAt s w t v) : u = v := by
  rcases Nat.lt_trichotomy u v with hlt | heq | hlt
  · exact absurd (hv.before u hu.onBranch hlt) hu.broken
  · exact heq
  · exact absurd (hu.before v hv.onBranch hlt) hv.broken

theorem BreaksAt.uncovered {v : Nat} (h : BreaksAt s w t v) : Uncovered s w t :=
  fun ⟨c, hc, hrun⟩ => h.broken ⟨c, hc, fun u hu _ => hrun u hu⟩

end Break

-- Candidates can scan.
theorem canRunAt_candidate (s : Snapshot) (w : Workflow) (t : Nat) (ht : t ∈ w.scans)
    (c : Connector) (hc : c ∈ candidatesAt s w t) : w.canRunAt c t = true := by
  rcases (Graph.mem_scans _ t).mp ht with ⟨table, cluster, columns, h⟩
  unfold candidatesAt at hc
  rw [candidates_of_scan s w t table cluster columns h, ← ableTo_scan table cluster columns] at hc
  exact (Workflow.canRunAt_iff w c t).mpr ⟨_, h, (List.mem_filter.mp hc).2⟩

-- So a branch is covered by whoever can run what the scan drags along.
theorem uncovered_iff (s : Snapshot) (w : Workflow) (t : Nat) (ht : t ∈ w.scans) :
    Uncovered s w t ↔
      (candidatesAt s w t).filter (w.canRunAll (w.segment (w.next? t)).steps) = [] := by
  have hlt := Graph.lt_of_mem_scans _ _ ht
  unfold Uncovered
  simp only [List.filter_eq_nil_iff, Workflow.canRunAll_iff, Workflow.onBranch_iff w t hlt]
  constructor
  · intro hnot c hc hall
    refine hnot ⟨c, hc, fun v hv => ?_⟩
    rcases List.mem_cons.mp hv with rfl | hmem
    · exact canRunAt_candidate s w v ht c hc
    · exact hall v hmem
  · rintro hnot ⟨c, hc, hrun⟩
    exact hnot c hc fun v hv => hrun v (List.mem_cons_of_mem _ hv)

theorem uncovered_iff_none (s : Snapshot) (w : Workflow) (t : Nat) (ht : t ∈ w.scans) :
    Uncovered s w t ↔ branchConnectors s w t = [] := by
  have hlt := Graph.lt_of_mem_scans _ _ ht
  rcases (Graph.mem_scans _ t).mp ht with ⟨table, cluster, columns, h⟩
  unfold Uncovered candidatesAt branchConnectors
  rw [candidates_of_scan s w t table cluster columns h,
    ← filter_supports_scan w t table cluster columns h]
  simp only [List.filter_eq_nil_iff, Workflow.canRunAll_iff, Workflow.onBranch_iff w t hlt]
  exact ⟨fun hnot c hc hall => hnot ⟨c, hc, hall⟩, fun hall ⟨c, hc, hrun⟩ => hall c hc hrun⟩

/-- The branch that is made of the candidates of a scan, as far as they get. -/
def branchAt (s : Snapshot) (w : Workflow) (t : Nat) : Branch :=
  let r := w.reach (w.next? t) (candidatesAt s w t)
  ⟨w.tableAt t, t, r.steps.getLastD t, t :: r.steps, r.connectors, r.stoppedAt⟩

-- A scan has a branch exactly if its table has candidates.
theorem branchOf_candidates (s : Snapshot) (w : Workflow) (t : Nat) (ht : t ∈ w.scans) :
    Branch.of w t (candidatesAt s w t) = if candidatesAt s w t = []
      then .error (.noCapableConnector (w.tableAt t) t [.scan]) else .ok (branchAt s w t) := by
  rcases (Graph.mem_scans _ t).mp ht with ⟨table, cluster, columns, h⟩
  have hable : ableTo (.scan table cluster columns) (candidatesAt s w t) = candidatesAt s w t := by
    unfold ableTo
    rw [List.filter_eq_self]
    intro c hc
    rcases (Workflow.canRunAt_iff w c t).mp (canRunAt_candidate s w t ht c hc) with
      ⟨step, hstep, hrun⟩
    rw [h, Option.some.injEq] at hstep
    rw [hstep]
    exact hrun
  unfold Branch.of branchAt
  rw [h, Workflow.tableAt_of_scan w t table cluster columns h]
  simp only [hable]
  cases candidatesAt s w t with
  | nil => rfl
  | cons c running => rfl

-- The steps of a branch before one of them are those of smaller numbers.
theorem onBranch_split (w : Workflow) (t : Nat) (ht : t < w.size) (before after : List Nat)
    (v : Nat) (h : w.stretch t = before ++ v :: after) :
    w.OnBranch t v ∧ ∀ u, (w.OnBranch t u ∧ u < v) ↔ u ∈ before := by
  have hordered := Workflow.stretch_pairwise_lt w t ht
  simp only [Workflow.onBranch_iff w t ht, h, List.mem_append, List.mem_cons]
  rw [h, List.pairwise_append, List.pairwise_cons] at hordered
  refine ⟨by simp, fun u => ⟨?_, fun hu => ⟨Or.inl hu, hordered.2.2 u hu v List.mem_cons_self⟩⟩⟩
  rintro ⟨hu | rfl | hu, hless⟩
  · exact hu
  · omega
  · have := hordered.2.1.1 u hu
    omega

/-- A branch that is not covered breaks where the walk stops. -/
theorem exists_break (s : Snapshot) (w : Workflow) (t : Nat) (ht : t ∈ w.scans)
    (hne : candidatesAt s w t ≠ []) (h : Uncovered s w t) :
    ∃ v step, BreaksAt s w t v ∧ w.step? v = some step ∧
      (branchAt s w t).gap? w
        = some (.noCapableConnector (w.tableAt t) v step.alternatives) := by
  have hlt := Graph.lt_of_mem_scans _ _ ht
  rcases Workflow.reach_short w t hlt _ hne ((uncovered_iff s w t ht).mp h) with
    ⟨before, v, after, hsplit, hreach, hjoin, hsome, hnone⟩
  rcases onBranch_split w t hlt (t :: before) after v (congrArg (t :: ·) hsplit) with
    ⟨hv, hbelow⟩
  have hvlt := (Workflow.le_of_mem_stretch w t hlt v ((Workflow.onBranch_iff w t hlt v).mp hv)).2
  rcases Graph.exists_step _ v hvlt with ⟨step, hstep⟩
  refine ⟨v, step, ⟨hv, fun u hu hless => ?_, ?_⟩, hstep, ?_⟩
  · -- A connector that is left before the walk stops can run all steps up to there.
    rcases List.exists_mem_of_ne_nil _ hsome with ⟨c, hc⟩
    rcases List.mem_filter.mp hc with ⟨hc, hall⟩
    refine ⟨c, hc, fun x hx hle => ?_⟩
    rcases List.mem_cons.mp ((hbelow x).mp ⟨hx, by omega⟩) with rfl | hmem
    · exact canRunAt_candidate s w x ht c hc
    · exact (Workflow.canRunAll_iff w before c).mp hall x hmem
  · rintro ⟨c, hc, hto⟩
    rw [List.filter_eq_nil_iff] at hnone
    refine hnone c hc ((Workflow.canRunAll_iff w _ c).mpr fun x hx => ?_)
    rcases List.mem_append.mp hx with hx | hx
    · rcases (hbelow x).mpr (List.mem_cons_of_mem _ hx) with ⟨hon, hless⟩
      exact hto x hon (by omega)
    · rw [List.mem_singleton.mp hx]
      exact hto v hv le_rfl
  · unfold branchAt Branch.gap?
    simp only [hreach, hjoin, hstep, Option.map_some, Option.getD_some, if_false,
      Bool.false_eq_true]

theorem gap?_eq_none_iff (s : Snapshot) (w : Workflow) (t : Nat) (ht : t ∈ w.scans)
    (hne : candidatesAt s w t ≠ []) : (branchAt s w t).gap? w = none ↔ ¬Uncovered s w t := by
  rw [gap?_eq_none, uncovered_iff s w t ht]
  exact Workflow.reach_all_isJoinAt w t (Graph.lt_of_mem_scans _ _ ht) _ hne

/-- A branch has a gap where it breaks. -/
theorem gap?_eq_some_iff (s : Snapshot) (w : Workflow) (t : Nat) (ht : t ∈ w.scans)
    (hne : candidatesAt s w t ≠ []) (cause : PlanningCause) :
    (branchAt s w t).gap? w = some cause ↔ ∃ v step, BreaksAt s w t v ∧
      w.step? v = some step ∧
        cause = .noCapableConnector (w.tableAt t) v step.alternatives := by
  constructor
  · intro hgap
    have huncovered : Uncovered s w t := by
      by_contra hcovered
      rw [(gap?_eq_none_iff s w t ht hne).mpr hcovered] at hgap
      cases hgap
    rcases exists_break s w t ht hne huncovered with ⟨v, step, hbreak, hstep, heq⟩
    rw [hgap, Option.some.injEq] at heq
    exact ⟨v, step, hbreak, hstep, heq⟩
  · rintro ⟨v, step, hbreak, hstep, rfl⟩
    rcases exists_break s w t ht hne hbreak.uncovered with ⟨u, other, hu, hother, hgap⟩
    rw [hu.unique hbreak, hstep, Option.some.injEq] at hother
    rw [hgap, hu.unique hbreak, hother]

-- Scans have branches exactly if their tables have candidates.
theorem branches_made (s : Snapshot) (w : Workflow) (ids : List Nat)
    (hids : ∀ t ∈ ids, t ∈ w.scans) (out : List Branch) :
    ids.mapM (fun t => Branch.of w t (candidatesAt s w t)) = .ok out ↔
      (∀ t ∈ ids, candidatesAt s w t ≠ []) ∧ out = ids.map (branchAt s w) := by
  have hknown := mapM_eq_ok_known (fun t => Branch.of w t (candidatesAt s w t)) (fun _ => True)
    (fun t => candidatesAt s w t ≠ []) (branchAt s w) ids out fun t ht b => by
      rw [branchOf_candidates s w t (hids t ht)]
      by_cases hnone : candidatesAt s w t = []
      · simp [hnone]
      · simp [hnone, eq_comm]
  rw [← hknown]
  simp

theorem mem_initialSteps (w : Workflow) (before after : List Nat) (t : Nat)
    (h : w.initialSteps = before ++ t :: after) : t ∈ w.scans ∧ ∀ u ∈ before, u ∈ w.scans := by
  have hmem : ∀ u, u ∈ w.scans ↔ u ∈ before ++ t :: after := fun u => by rw [← h]; rfl
  exact ⟨(hmem t).mpr (by simp), fun u hu => (hmem u).mpr (List.mem_append_left _ hu)⟩

-- No branches are made if some table has no candidate, and the first is to blame.
theorem branches_not_made (s : Snapshot) (w : Workflow) (cause : PlanningCause) :
    w.initialSteps.mapM (fun t => Branch.of w t (candidatesAt s w t)) = .error cause ↔
      ∃ before after t, w.initialSteps = before ++ t :: after ∧
        (∀ u ∈ before, candidatesAt s w u ≠ []) ∧ candidatesAt s w t = [] ∧
          cause = .noCapableConnector (w.tableAt t) t [.scan] := by
  rw [mapM_eq_error]
  constructor
  · rintro ⟨before, t, after, out, hsplit, hout, ht⟩
    rcases mem_initialSteps w before after t hsplit with ⟨hscan, hbefore⟩
    have hcandidates := ((branches_made s w before hbefore out).mp hout).1
    rw [branchOf_candidates s w t hscan] at ht
    by_cases hnone : candidatesAt s w t = []
    · rw [if_pos hnone] at ht
      cases ht
      exact ⟨before, after, t, hsplit, hcandidates, hnone, rfl⟩
    · rw [if_neg hnone] at ht
      cases ht
  · rintro ⟨before, after, t, hsplit, hcandidates, hnone, rfl⟩
    rcases mem_initialSteps w before after t hsplit with ⟨hscan, hbefore⟩
    refine ⟨before, t, after, _, hsplit, (branches_made s w before hbefore _).mpr
      ⟨hcandidates, rfl⟩, ?_⟩
    rw [branchOf_candidates s w t hscan, if_pos hnone]

-- Of the branches that are made the first that is not covered is to blame.
theorem first_gap_iff (s : Snapshot) (w : Workflow)
    (hcandidates : ∀ t ∈ w.scans, candidatesAt s w t ≠ []) (cause : PlanningCause) :
    (w.initialSteps.map (branchAt s w)).findSome? (Branch.gap? w) = some cause ↔
      ∃ before after t v step, w.initialSteps = before ++ t :: after ∧
        (∀ u ∈ before, ¬Uncovered s w u) ∧ BreaksAt s w t v ∧ w.step? v = some step ∧
          cause = .noCapableConnector (w.tableAt t) v step.alternatives := by
  rw [List.findSome?_map, List.findSome?_eq_some_iff]
  constructor
  · rintro ⟨before, t, after, hsplit, ht, hnone⟩
    rcases mem_initialSteps w before after t hsplit with ⟨hscan, hbefore⟩
    rcases (gap?_eq_some_iff s w t hscan (hcandidates t hscan) cause).mp ht with
      ⟨v, step, hbreak, hstep, hcause⟩
    exact ⟨before, after, t, v, step, hsplit, fun u hu => (gap?_eq_none_iff s w u (hbefore u hu)
      (hcandidates u (hbefore u hu))).mp (hnone u hu), hbreak, hstep, hcause⟩
  · rintro ⟨before, after, t, v, step, hsplit, hcovered, hbreak, hstep, hcause⟩
    rcases mem_initialSteps w before after t hsplit with ⟨hscan, hbefore⟩
    exact ⟨before, t, after, hsplit, (gap?_eq_some_iff s w t hscan (hcandidates t hscan) cause).mpr
      ⟨v, step, hbreak, hstep, hcause⟩, fun u hu => (gap?_eq_none_iff s w u (hbefore u hu)
        (hcandidates u (hbefore u hu))).mpr (hcovered u hu)⟩

-- The branches are made one by one, and only then is one of them reported.
theorem branchesOf_eq_error (s : Snapshot) (w : Workflow) (cause : PlanningCause) :
    branchesOf s w = .error cause ↔
      w.initialSteps.mapM (fun t => Branch.of w t (candidatesAt s w t)) = .error cause ∨
        (∀ t ∈ w.scans, candidatesAt s w t ≠ []) ∧
          (w.initialSteps.map (branchAt s w)).findSome? (Branch.gap? w) = some cause := by
  have hmade := branches_made s w w.initialSteps (fun t ht => ht)
  unfold branchesOf
  rw [bind_eq_error]
  refine or_congr Iff.rfl ⟨?_, fun ⟨hcandidates, hgap⟩ => ?_⟩
  · rintro ⟨branches, hbranches, h⟩
    rcases (hmade branches).mp hbranches with ⟨hcandidates, rfl⟩
    cases hgap : (w.initialSteps.map (branchAt s w)).findSome? (Branch.gap? w) with
    | none =>
        rw [hgap] at h
        cases h
    | some found =>
        rw [hgap] at h
        cases h
        exact ⟨hcandidates, rfl⟩
  · refine ⟨_, (hmade _).mpr ⟨hcandidates, rfl⟩, ?_⟩
    rw [hgap]
    rfl

/-- What is reported if branches are not covered. -/
theorem branchesOf_eq_error_iff (s : Snapshot) (w : Workflow) (cause : PlanningCause) :
    branchesOf s w = .error cause ↔ ∃ table step required,
      cause = .noCapableConnector table step required ∧ CoverageFault s w table step required := by
  rw [branchesOf_eq_error, branches_not_made]
  constructor
  · rintro (⟨before, after, t, hsplit, hcandidates, hnone, rfl⟩ | ⟨hcandidates, hgap⟩)
    · rcases (Graph.mem_scans _ t).mp (mem_initialSteps w before after t hsplit).1 with
        ⟨table, cluster, columns, h⟩
      rw [Workflow.tableAt_of_scan w t table cluster columns h]
      exact ⟨_, _, _, rfl, .unscannable before after t table cluster columns hsplit h hcandidates
        hnone⟩
    · rcases (first_gap_iff s w hcandidates cause).mp hgap with
        ⟨before, after, t, v, step, hsplit, hcovered, hbreak, hstep, rfl⟩
      rcases (Graph.mem_scans _ t).mp (mem_initialSteps w before after t hsplit).1 with
        ⟨table, cluster, columns, h⟩
      rw [Workflow.tableAt_of_scan w t table cluster columns h]
      exact ⟨_, _, _, rfl, .broken before after t v table cluster columns step hcandidates hsplit h
        hcovered hbreak hstep⟩
  · rintro ⟨table, v, required, rfl, hfault⟩
    cases hfault with
    | unscannable before after _ _ cluster columns hsplit h hcandidates hnone =>
        exact Or.inl ⟨before, after, v, hsplit, hcandidates, hnone, by
          rw [Workflow.tableAt_of_scan w v table cluster columns h]⟩
    | broken before after t _ _ cluster columns step hcandidates hsplit h hcovered hbreak hstep =>
        exact Or.inr ⟨hcandidates, (first_gap_iff s w hcandidates _).mpr ⟨before, after, t, v, step,
          hsplit, hcovered, hbreak, hstep, by
            rw [Workflow.tableAt_of_scan w t table cluster columns h]⟩⟩

/-- Something is reported exactly if some branch is not covered. -/
theorem exists_fault_iff (s : Snapshot) (w : Workflow) :
    (∃ table step required, CoverageFault s w table step required) ↔
      ∃ t ∈ w.initialSteps, Uncovered s w t := by
  constructor
  · rintro ⟨table, v, required, hfault⟩
    cases hfault with
    | unscannable before after _ _ cluster columns hsplit h _ hnone =>
        refine ⟨v, (mem_initialSteps w before after v hsplit).1, fun ⟨c, hc, _⟩ => ?_⟩
        rw [hnone] at hc
        exact absurd hc List.not_mem_nil
    | broken before after t _ _ cluster columns step _ hsplit h _ hbreak hstep =>
        exact ⟨t, (mem_initialSteps w before after t hsplit).1, hbreak.uncovered⟩
  · rintro ⟨t, ht, huncovered⟩
    cases hbranches : branchesOf s w with
    | error cause =>
        rcases (branchesOf_eq_error_iff s w cause).mp hbranches with
          ⟨table, step, required, _, hfault⟩
        exact ⟨table, step, required, hfault⟩
    | ok branches =>
        have hcovered := ((branchesOf_eq_ok s w branches).mp hbranches).1 t ht
        exact absurd ((uncovered_iff_none s w t ht).mp huncovered) hcovered

end Federation
