import Federation.Proofs.Planner.Refusal

/-!
# What the Settings Do

The settings take no part in how the work is divided. Under each of them the planner
makes the same plan, and then may decline it: whoever may not leave a join to a
coordinator declines a plan that does, and whoever allows only so many stages one that
has more. Nothing is planned differently to stay within the settings.

That is not how the planner goes about it. Where a coordinator may not join, a run
stops at the first join that nobody merges, with later joins not looked at and the
stages not yet counted. Up to that join it has made the very stages that a run with a
coordinator makes, since a stage depends on those before it and on no setting. So the
join at which it stops is the one of the first stage that has a coordinator, and this
is reported even if there are too many stages besides.

## Main definitions

* `PlannerConfig.unlimited`: The settings that decline nothing.
* `MultiPlan.unmerged?`: The first stage of a plan that nobody merges.
* `PlannerConfig.review`: A plan under given settings, or why they decline it.

## Theorems

* `stageAt_reject`: One stage, with and without a coordinator to fall back on.
* `mergeStages_reject`: All of them.
* `splitPlan_reject`: The divided work.
* `planSelect_reviewed`: Settings only decline what is planned without limits.
-/

namespace Federation

/-- The settings that decline nothing: a coordinator may join, and no count of stages
    is greater than the limit. -/
def PlannerConfig.unlimited : PlannerConfig := ⟨.coordinator, UInt64.size - 1⟩

/-- The first of several stages that nobody merges. -/
def firstUnmerged? (stages : List Stage) : Option Stage :=
  stages.find? fun stage => stage.executor == .coordinator

theorem firstUnmerged?_cons (stage : Stage) (rest : List Stage) :
    firstUnmerged? (stage :: rest)
      = if stage.executor = .coordinator then some stage else firstUnmerged? rest := by
  unfold firstUnmerged?
  rw [List.find?_cons]
  by_cases h : stage.executor = .coordinator
  · rw [if_pos h, beq_iff_eq.mpr h]
  · rw [if_neg h, beq_eq_false_iff_ne.mpr h]

/-- The first stage of a plan that nobody merges. -/
def MultiPlan.unmerged? (p : MultiPlan) : Option Stage := firstUnmerged? p.stages

/-- A plan under given settings, or why they decline it. Only a plan in branches can be
    declined: for a join that nobody merges before the number of its stages. -/
def PlannerConfig.review (config : PlannerConfig) : Plan → Except PlanningError Plan
  | .multi p =>
    match config.fallback, p.unmerged? with
    | .reject, some stage =>
      .error ⟨p.query, .pathsBuilt, .noCommonConnector stage.tables (some stage.join)⟩
    | _, _ =>
      if config.maxStages < p.stages.length then
        .error ⟨p.query, .connectorsChosen, .unsupportedStatement
          ("workflow with " ++ toString p.stages.length ++ " merge stages (at most "
            ++ toString config.maxStages ++ " allowed)")⟩
      else
        .ok (.multi p)
  | p => .ok p

/-- Without a coordinator to fall back on a stage is as with one, unless nobody merges
    its join. -/
theorem stageAt_reject (w : Workflow) (branches : List AssignedBranch)
    (settled : List (Nat × Connector)) (before : List Stage) (join : Nat) (stage : Stage)
    (h : stageAt .coordinator w branches settled before join = .ok stage) :
    stageAt .reject w branches settled before join
      = if stage.executor = .coordinator then
          .error (.noCommonConnector stage.tables (some stage.join))
        else
          .ok stage := by
  unfold stageAt at h ⊢
  simp only at h ⊢
  cases hnative : nativeExecutor? w settled join with
  | some executor =>
      rcases nativeExecutor?_spec w settled join executor hnative with
        ⟨c, capability, _, rfl, _, _, _⟩
      rw [hnative] at h
      cases h
      exact (if_neg StageExecutor.noConfusion).symm
  | none =>
      rw [hnative] at h
      simp only at h ⊢
      cases hmerge : mergeExecutor? w join (w.segment (w.next? join)).steps
          (feedsOf w branches before join) with
      | some c =>
          rw [hmerge] at h
          cases h
          exact (if_neg StageExecutor.noConfusion).symm
      | none =>
          rw [hmerge] at h
          cases h
          exact (if_pos rfl).symm

/-- Without a coordinator to fall back on the stages are as with one, unless there is
    one that nobody merges. -/
theorem mergeStages_reject (w : Workflow) (branches : List AssignedBranch)
    (settled : List (Nat × Connector)) (stages : List Stage)
    (h : mergeStages .coordinator w branches settled = .ok stages) :
    mergeStages .reject w branches settled
      = match firstUnmerged? stages with
        | some stage => .error (.noCommonConnector stage.tables (some stage.join))
        | none => .ok stages := by
  unfold mergeStages at h ⊢
  -- Both runs have collected the same stages so far, and only those to come matter.
  suffices hall : ∀ (joins : List Nat) (before stages : List Stage),
      joins.foldlM (fun stages join => do
        return stages ++ [← stageAt .coordinator w branches settled stages join]) before
          = .ok stages →
        ∃ new, stages = before ++ new ∧
          joins.foldlM (fun stages join => do
            return stages ++ [← stageAt .reject w branches settled stages join]) before
            = match firstUnmerged? new with
              | some stage => .error (.noCommonConnector stage.tables (some stage.join))
              | none => .ok stages by
    rcases hall w.joins [] stages h with ⟨new, hnew, hreject⟩
    rw [hreject, hnew]
    rfl
  intro joins
  induction joins with
  | nil =>
      intro before stages h
      cases h
      exact ⟨[], (List.append_nil _).symm, rfl⟩
  | cons join rest ih =>
      intro before stages h
      rcases stageAt_ok w branches settled before join with ⟨stage, hstage⟩
      rw [List.foldlM_cons, hstage] at h
      rcases ih (before ++ [stage]) stages h with ⟨new, hstages, hrest⟩
      refine ⟨stage :: new, by rw [hstages, List.append_assoc]; rfl, ?_⟩
      rw [List.foldlM_cons, stageAt_reject w branches settled before join stage hstage]
      rw [firstUnmerged?_cons]
      by_cases hexecutor : stage.executor = .coordinator
      · rw [if_pos hexecutor, if_pos hexecutor]
        rfl
      · rw [if_neg hexecutor, if_neg hexecutor]
        exact hrest

/-- Without a coordinator to fall back on the work is divided as with one, unless there
    is a join that nobody merges. -/
theorem splitPlan_reject (query : QueryId) (w : Workflow) (branches : List Branch)
    (native : List (Nat × Fragment)) :
    splitPlan .reject query w branches native
      = (do
          let p ← splitPlan .coordinator query w branches native
          match p.unmerged? with
          | some stage => .error (.noCommonConnector stage.tables (some stage.join))
          | none => .ok p) := by
  unfold splitPlan
  cases settle native with
  | error cause => rfl
  | ok settled =>
      show (do let assigned ← branches.mapM (assign settled); _) = (do
        let p ← (do let assigned ← branches.mapM (assign settled); _); _)
      cases branches.mapM (assign settled) with
      | error cause => rfl
      | ok assigned =>
          rcases mergeStages_ok w assigned settled with ⟨stages, hstages⟩
          show (do let stages ← mergeStages .reject w assigned settled; _) = (do
            let p ← (do let stages ← mergeStages .coordinator w assigned settled; _); _)
          rw [hstages, mergeStages_reject w assigned settled stages hstages]
          show _ = match firstUnmerged? stages with | some _ => _ | none => _
          cases firstUnmerged? stages <;> rfl

-- A workflow has fewer joins than the greatest count there is.
theorem joins_length_lt (w : Workflow) : w.joins.length < UInt64.size := by
  have hjoins : w.joins.length ≤ w.size := by
    have hlength := (List.filter_sublist (l := w.ids) (p := w.isJoinAt)).length_le
    rw [Graph.ids, List.length_range] at hlength
    exact hlength
  have hsize := w.sound.size_le
  unfold Graph.capacity at hsize
  have hcounts : UInt32.size - 1 < UInt64.size := by decide
  exact Nat.lt_of_le_of_lt (Nat.le_trans hjoins hsize) hcounts

-- A divided read has a stage for each join, whichever settings it was divided under.
theorem splitPlan_stages_length (fallback : MergeFallback) (query : QueryId) (w : Workflow)
    (branches : List Branch) (native : List (Nat × Fragment)) (p : MultiPlan)
    (h : splitPlan fallback query w branches native = .ok p) :
    p.query = query ∧ p.stages.length = w.joins.length := by
  rcases (splitPlan_eq_ok _ _ _ _ _ _).mp h with ⟨settled, assigned, stages, _, _, hstages, rfl⟩
  refine ⟨rfl, ?_⟩
  rw [← (mergeStages_spec _ w assigned settled stages hstages).1, List.length_map]

-- The unlimited settings decline no plan for the number of its stages.
theorem limitStages_unlimited (query : QueryId) (w : Workflow) (branches : List Branch)
    (native : List (Nat × Fragment)) (p : MultiPlan)
    (h : splitPlan .coordinator query w branches native = .ok p) :
    limitStages .unlimited p = .ok (.multi p) := by
  have hlength := (splitPlan_stages_length _ query w branches native p h).2
  have hroom := joins_length_lt w
  refine (limitStages_eq_ok .unlimited p _).mpr ⟨?_, rfl⟩
  show p.stages.length ≤ UInt64.size - 1
  omega

-- Dividing the work under the unlimited settings and reviewing the plan is dividing it
-- under the settings themselves.
theorem divided_reviewed (config : PlannerConfig) (query : QueryId) (w : Workflow)
    (branches : List Branch) (native : List (Nat × Fragment)) :
    (do
      let p ← during query .pathsBuilt (splitPlan config.fallback query w branches native)
      during query .connectorsChosen (limitStages config p))
    = (do
        let p ← during query .pathsBuilt (splitPlan .coordinator query w branches native)
        during query .connectorsChosen (limitStages .unlimited p)) >>= config.review := by
  rcases config with ⟨fallback, maxStages⟩
  cases hsplit : splitPlan .coordinator query w branches native with
  | error cause =>
      cases fallback with
      | coordinator =>
          rw [hsplit]
          rfl
      | reject =>
          rw [splitPlan_reject, hsplit]
          rfl
  | ok p =>
      have hquery := (splitPlan_stages_length _ query w branches native p hsplit).1
      -- Where nobody is missing, only the number of stages is left to be looked at.
      have hlimit : during query .connectorsChosen (limitStages ⟨fallback, maxStages⟩ p)
          = if maxStages < p.stages.length then
              .error ⟨p.query, .connectorsChosen, .unsupportedStatement
                ("workflow with " ++ toString p.stages.length ++ " merge stages (at most "
                  ++ toString maxStages ++ " allowed)")⟩
            else
              .ok (.multi p) := by
        unfold limitStages
        rw [hquery]
        by_cases hmany : maxStages < p.stages.length
        · rw [if_pos hmany, if_pos hmany]
          rfl
        · rw [if_neg hmany, if_neg hmany]
          rfl
      show _ = during query .connectorsChosen (limitStages .unlimited p) >>=
        PlannerConfig.review ⟨fallback, maxStages⟩
      rw [limitStages_unlimited query w branches native p hsplit]
      show _ = PlannerConfig.review ⟨fallback, maxStages⟩ (.multi p)
      unfold PlannerConfig.review
      cases fallback with
      | coordinator =>
          rw [hsplit]
          exact hlimit
      | reject =>
          rw [splitPlan_reject, hsplit]
          show (during query .pathsBuilt (match p.unmerged? with | some _ => _ | none => _) >>= _) = _
          cases hunmerged : p.unmerged? with
          | some stage =>
              simp only [hunmerged, hquery]
              rfl
          | none =>
              simp only [hunmerged]
              exact hlimit

/-- The settings only decline what is planned without limits: a read is refused under
    them as it is without, and a plan stands unless it leaves a join to a coordinator
    that may not join, or else has too many stages. -/
theorem planSelect_reviewed (config : PlannerConfig) (query : QueryId) (w : Workflow)
    (s : Snapshot) :
    planSelect config query w s = planSelect .unlimited query w s >>= config.review := by
  unfold planSelect
  cases branchesOf s w with
  | error cause => rfl
  | ok branches =>
      have hbranches : during query .unplanned (.ok branches) = .ok branches := rfl
      simp only [hbranches, ok_bind]
      cases wholeFragment? w branches (nativeFragments w branches) with
      | some fragment =>
          -- A plan on one connector is beyond review.
          dsimp only
          cases hwhole : wholePlan query w fragment with
          | error cause => rfl
          | ok p =>
              rcases (wholePlan_eq_ok query w fragment p).mp hwhole with ⟨_, _, rfl⟩
              rfl
      | none => exact divided_reviewed config query w branches (nativeFragments w branches)

end Federation
