import Federation.Proofs.Planner.Uncovered

/-!
# Why a Read Is Refused

A read that is not planned is refused for one of four reasons: a branch is not
covered, the choice for the whole workflow fails, the work cannot be divided, or it
would take too many stages. Dividing it fails for a native join, for a branch or for a
join that nobody merges. The reasons are stated with the phase in which each is found
out, and over the parts of the workflow, not over what the planner has made so far.

Nothing is ever chosen from an empty list, so a choice fails only on an ambiguous name.
Four grounds are left, each with a kind of cause of its own, which tells at what point
planning came to an end.

## Main definitions

* `Refused`: Why a read is refused, and when.
* `Grounds`: The kinds of causes, each in its phase.

## Theorems

* `planSelect_eq_error`: When a read is refused.
* `splitPlan_eq_error`: Why the work cannot be divided.
* `mergeStages_error`: A join that nobody merges is named.
* `divide_error`: A choice or a join stands in the way of dividing a read.
* `Refused.grounds`, `planSelect_grounds`: A read is refused on one of the grounds.
* `coverage_failure_iff`: When a read is refused for a branch that is not covered.
-/

namespace Federation

/-- A read divided into its branches and stages. -/
def divide (config : PlannerConfig) (query : QueryId) (w : Workflow) (s : Snapshot) :
    Except PlanningCause MultiPlan :=
  splitPlan config.fallback query w (w.scans.map (wholeBranch s w)) (natives s w)

/-- Why a read is refused, with the phase in which that is found out. -/
inductive Refused (config : PlannerConfig) (query : QueryId) (w : Workflow) (s : Snapshot)
    (root : Nat) : Phase → PlanningCause → Prop
  | uncovered (cause : PlanningCause) (hbranches : branchesOf s w = .error cause) :
      Refused config query w s root .unplanned cause
  | undecided (f : Fragment) (cause : PlanningCause)
      (hscans : ∀ t ∈ w.scans, branchConnectors s w t ≠ []) (hpart : partOf? s w root = some f)
      (hchoice : choose f.candidates = .error cause) :
      Refused config query w s root .pathsBuilt cause
  | undivided (cause : PlanningCause) (hscans : ∀ t ∈ w.scans, branchConnectors s w t ≠ [])
      (hpart : partOf? s w root = none) (hdivide : divide config query w s = .error cause) :
      Refused config query w s root .pathsBuilt cause
  | crowded (m : MultiPlan) (cause : PlanningCause)
      (hscans : ∀ t ∈ w.scans, branchConnectors s w t ≠ []) (hpart : partOf? s w root = none)
      (hdivide : divide config query w s = .ok m) (hlimit : limitStages config m = .error cause) :
      Refused config query w s root .connectorsChosen cause

-- A failure during a run is one of the run, in its phase.
theorem during_eq_error {α : Type} (query : QueryId) (phase : Phase)
    (result : Except PlanningCause α) (e : PlanningError) :
    during query phase result = .error e ↔
      ∃ cause, result = .error cause ∧ e = ⟨query, phase, cause⟩ := by
  cases result with
  | error cause =>
      constructor
      · intro h
        cases h
        exact ⟨cause, rfl, rfl⟩
      · rintro ⟨_, h, rfl⟩
        cases h
        rfl
  | ok a =>
      constructor
      · intro h
        cases h
      · rintro ⟨_, h, _⟩
        cases h

theorem wholePlan_eq_error (query : QueryId) (w : Workflow) (f : Fragment)
    (cause : PlanningCause) :
    wholePlan query w f = .error cause ↔ choose f.candidates = .error cause := by
  unfold wholePlan
  rw [bind_eq_error]
  constructor
  · rintro (h | ⟨c, _, h⟩)
    · exact h
    · cases h
  · exact Or.inl

-- The parts of a plan in branches fail in the order in which they are made.
theorem splitPlan_eq_error (fallback : MergeFallback) (query : QueryId) (w : Workflow)
    (branches : List Branch) (native : List (Nat × Fragment)) (cause : PlanningCause) :
    splitPlan fallback query w branches native = .error cause ↔
      settle native = .error cause ∨ ∃ settled, settle native = .ok settled ∧
        (branches.mapM (assign settled) = .error cause ∨
          ∃ assigned, branches.mapM (assign settled) = .ok assigned ∧
            mergeStages fallback w assigned settled = .error cause) := by
  unfold splitPlan
  rw [bind_eq_error]
  refine or_congr Iff.rfl (exists_congr fun settled => and_congr_right fun _ => ?_)
  rw [bind_eq_error]
  refine or_congr Iff.rfl (exists_congr fun assigned => and_congr_right fun _ => ?_)
  rw [bind_eq_error]
  constructor
  · rintro (h | ⟨stages, _, h⟩)
    · exact h
    · cases h
  · exact Or.inl

/-- When a read is refused: in the phase of the reason, and for it. -/
theorem planSelect_eq_error (config : PlannerConfig) (query : QueryId) (w : Workflow)
    (s : Snapshot) (root : Nat) (hroot : w.IsRoot root) (e : PlanningError) :
    planSelect config query w s = .error e ↔
      e.query = query ∧ Refused config query w s root e.phase e.cause := by
  have hwhole := wholeFragment?_eq s w root hroot
  unfold natives at hwhole
  unfold planSelect
  rw [bind_eq_error]
  constructor
  · rintro (h | ⟨branches, hbranches, h⟩)
    · rcases (during_eq_error _ _ _ _).mp h with ⟨cause, hcause, rfl⟩
      exact ⟨rfl, Refused.uncovered cause hcause⟩
    rcases (branchesOf_eq_ok s w branches).mp ((during_eq_ok _ _ _ _).mp hbranches) with
      ⟨hscans, rfl⟩
    simp only [hwhole] at h
    cases hpart : partOf? s w root with
    | some f =>
        rw [hpart] at h
        rcases (during_eq_error _ _ _ _).mp h with ⟨cause, hcause, rfl⟩
        exact ⟨rfl, Refused.undecided f cause hscans hpart
          ((wholePlan_eq_error query w f cause).mp hcause)⟩
    | none =>
        rw [hpart] at h
        rcases (bind_eq_error _ _ _).mp h with h | ⟨m, hm, h⟩
        · rcases (during_eq_error _ _ _ _).mp h with ⟨cause, hcause, rfl⟩
          exact ⟨rfl, Refused.undivided cause hscans hpart hcause⟩
        · rcases (during_eq_error _ _ _ _).mp h with ⟨cause, hcause, rfl⟩
          exact ⟨rfl, Refused.crowded m cause hscans hpart ((during_eq_ok _ _ _ _).mp hm) hcause⟩
  · rintro ⟨hquery, hrefused⟩
    obtain ⟨q, phase, cause⟩ := e
    cases hquery
    -- All reasons but the first are found out with the branches made.
    have hmade : ∀ _ : ∀ t ∈ w.scans, branchConnectors s w t ≠ [],
        during q .unplanned (branchesOf s w) = .ok (w.scans.map (wholeBranch s w)) :=
      fun hscans => (during_eq_ok _ _ _ _).mpr ((branchesOf_eq_ok s w _).mpr ⟨hscans, rfl⟩)
    cases hrefused with
    | uncovered _ hcause =>
        exact Or.inl ((during_eq_error _ _ _ _).mpr ⟨cause, hcause, rfl⟩)
    | undecided f _ hscans hpart hchoice =>
        refine Or.inr ⟨_, hmade hscans, ?_⟩
        simp only [hwhole, hpart]
        exact (during_eq_error _ _ _ _).mpr
          ⟨cause, (wholePlan_eq_error q w f cause).mpr hchoice, rfl⟩
    | undivided _ hscans hpart hdivide =>
        refine Or.inr ⟨_, hmade hscans, ?_⟩
        simp only [hwhole, hpart]
        exact (bind_eq_error _ _ _).mpr
          (Or.inl ((during_eq_error _ _ _ _).mpr ⟨cause, hdivide, rfl⟩))
    | crowded m _ hscans hpart hdivide hlimit =>
        refine Or.inr ⟨_, hmade hscans, ?_⟩
        simp only [hwhole, hpart]
        exact (bind_eq_error _ _ _).mpr (Or.inr ⟨m, (during_eq_ok _ _ _ _).mpr hdivide,
          (during_eq_error _ _ _ _).mpr ⟨cause, hlimit, rfl⟩⟩)

-- Only for want of a coordinator a join is not merged.
theorem stageAt_error (fallback : MergeFallback) (w : Workflow) (branches : List AssignedBranch)
    (settled : List (Nat × Connector)) (before : List Stage) (join : Nat) (cause : PlanningCause)
    (h : stageAt fallback w branches settled before join = .error cause) :
    fallback = .reject ∧ ∃ tables, cause = .noCommonConnector tables (some join) := by
  cases fallback with
  | coordinator =>
      rcases stageAt_ok w branches settled before join with ⟨stage, hstage⟩
      rw [hstage] at h
      cases h
  | reject =>
      refine ⟨rfl, ?_⟩
      unfold stageAt at h
      simp only at h
      split at h
      · cases h
      · split at h
        · cases h
        · cases h
          exact ⟨_, rfl⟩

/-- A join that nobody merges is named, and so only where no coordinator may. -/
theorem mergeStages_error (fallback : MergeFallback) (w : Workflow)
    (branches : List AssignedBranch) (settled : List (Nat × Connector)) (cause : PlanningCause)
    (h : mergeStages fallback w branches settled = .error cause) :
    fallback = .reject ∧
      ∃ tables, ∃ join ∈ w.joins, cause = .noCommonConnector tables (some join) := by
  rcases (foldlM_eq_error _ _ _ _).mp h with ⟨before, join, after, stages, hsplit, _, hjoin⟩
  have hmem : join ∈ w.joins := by
    rw [hsplit]
    exact List.mem_append_right _ List.mem_cons_self
  rcases (bind_eq_error _ _ _).mp hjoin with hstage | ⟨stage, _, hstage⟩
  · rcases stageAt_error _ _ _ _ _ _ _ hstage with ⟨hfallback, tables, hcause⟩
    exact ⟨hfallback, tables, join, hmem, hcause⟩
  · cases hstage

-- Too many stages are refused with their number.
theorem limitStages_error (config : PlannerConfig) (m : MultiPlan) (cause : PlanningCause)
    (h : limitStages config m = .error cause) :
    config.maxStages < m.stages.length ∧ cause = .unsupportedStatement
      ("workflow with " ++ toString m.stages.length ++ " merge stages (at most "
        ++ toString config.maxStages ++ " allowed)") := by
  unfold limitStages at h
  split at h
  · rename_i hlimit
    cases h
    exact ⟨hlimit, rfl⟩
  · cases h

-- A divided read has a stage for each join.
theorem divide_stages_length (config : PlannerConfig) (query : QueryId) (w : Workflow)
    (s : Snapshot) (m : MultiPlan) (h : divide config query w s = .ok m) :
    m.stages.length = w.joins.length := by
  rcases (splitPlan_eq_ok _ _ _ _ _ _).mp h with ⟨settled, assigned, stages, _, _, hstages, rfl⟩
  rw [← (mergeStages_spec _ w assigned settled stages hstages).1, List.length_map]

/-- The choice for a part, or a join that nobody merges, stands in the way of dividing a
    read. -/
theorem divide_error (config : PlannerConfig) (query : QueryId) (w : Workflow) (s : Snapshot)
    (cause : PlanningCause) (h : divide config query w s = .error cause) :
    (∃ t ∈ w.starts, ∃ f, partOf? s w t = some f ∧ choose f.candidates = .error cause) ∨
      (config.fallback = .reject ∧
        ∃ tables, ∃ join ∈ w.joins, cause = .noCommonConnector tables (some join)) := by
  rcases (splitPlan_eq_error _ _ _ _ _ cause).mp h with
    hsettled | ⟨settled, _, hassigned | ⟨assigned, _, hstages⟩⟩
  · rcases settle_error _ cause hsettled with ⟨e, he, hchoice⟩
    rcases mem_natives s w e he with ⟨hjoin, hf⟩
    exact Or.inl ⟨e.1, Workflow.mem_starts_of_join w e.1 hjoin, e.2, hf, hchoice⟩
  · rcases (mapM_eq_error _ _ _).mp hassigned with ⟨before, b, after, _, hsplit, _, hb⟩
    have hmem : b ∈ w.scans.map (wholeBranch s w) := by
      rw [hsplit]
      exact List.mem_append_right _ List.mem_cons_self
    rcases List.mem_map.mp hmem with ⟨t, ht, rfl⟩
    exact Or.inl ⟨t, Workflow.mem_starts_of_scan w t ht, _, partOf?_scan s w t ht,
      assign_error settled _ cause hb⟩
  · exact Or.inr (mergeStages_error _ _ _ _ _ hstages)

/-- On what grounds a read is refused: for each phase of planning the kinds of causes that
    end it there. -/
inductive Grounds (config : PlannerConfig) (w : Workflow) (s : Snapshot) :
    Phase → PlanningCause → Prop
  | uncovered (table : TableName) (step : Nat) (required : List Capability)
      (h : CoverageFault s w table step required) :
      Grounds config w s .unplanned (.noCapableConnector table step required)
  | undecided (t : Nat) (f : Fragment) (name : ConnectorName) (handles : List Handle)
      (hscans : ∀ t ∈ w.scans, branchConnectors s w t ≠ []) (ht : t ∈ w.starts)
      (hf : partOf? s w t = some f)
      (h : choose f.candidates = .error (.ambiguousChoice name handles)) :
      Grounds config w s .pathsBuilt (.ambiguousChoice name handles)
  | unmerged (tables : List TableName) (join : Nat) (hjoin : join ∈ w.joins)
      (h : config.fallback = .reject) :
      Grounds config w s .pathsBuilt (.noCommonConnector tables (some join))
  | crowded (h : config.maxStages < w.joins.length) :
      Grounds config w s .connectorsChosen (.unsupportedStatement
        ("workflow with " ++ toString w.joins.length ++ " merge stages (at most "
          ++ toString config.maxStages ++ " allowed)"))

-- A part is never without connectors, so its choice fails on an ambiguous name.
theorem grounds_of_choice (config : PlannerConfig) (w : Workflow) (s : Snapshot)
    (hscans : ∀ t ∈ w.scans, branchConnectors s w t ≠ []) (t : Nat) (ht : t ∈ w.starts)
    (f : Fragment) (hf : partOf? s w t = some f) (cause : PlanningCause)
    (h : choose f.candidates = .error cause) : Grounds config w s .pathsBuilt cause := by
  rcases choose_fragment_error f (part_tables s w t ht f hf)
    (part_connectors s w hscans t ht f hf) cause h with ⟨name, handles, rfl⟩
  exact Grounds.undecided t f name handles hscans ht hf h

/-- A read is refused on one of the grounds. -/
theorem Refused.grounds {config : PlannerConfig} {query : QueryId} {w : Workflow} {s : Snapshot}
    {root : Nat} (hroot : w.IsRoot root) {phase : Phase} {cause : PlanningCause}
    (h : Refused config query w s root phase cause) : Grounds config w s phase cause := by
  cases h with
  | uncovered _ hbranches =>
      rcases (branchesOf_eq_error_iff s w cause).mp hbranches with
        ⟨table, step, required, rfl, hfault⟩
      exact Grounds.uncovered table step required hfault
  | undecided f _ hscans hpart hchoice =>
      exact grounds_of_choice config w s hscans root hroot.mem f hpart cause hchoice
  | undivided _ hscans _ hdivide =>
      rcases divide_error config query w s cause hdivide with
        ⟨t, ht, f, hf, hchoice⟩ | ⟨hfallback, tables, join, hjoin, rfl⟩
      · exact grounds_of_choice config w s hscans t ht f hf cause hchoice
      · exact Grounds.unmerged tables join hjoin hfallback
  | crowded m _ _ _ hdivide hlimit =>
      rcases limitStages_error config m cause hlimit with ⟨hmany, rfl⟩
      rw [divide_stages_length config query w s m hdivide] at hmany ⊢
      exact Grounds.crowded hmany

/-- So whatever a read fails on is one of the grounds. -/
theorem planSelect_grounds (config : PlannerConfig) (query : QueryId) (w : Workflow)
    (s : Snapshot) (e : PlanningError) (h : planSelect config query w s = .error e) :
    e.query = query ∧ Grounds config w s e.phase e.cause := by
  rcases Workflow.exists_root w with ⟨root, hroot⟩
  rcases (planSelect_eq_error config query w s root hroot e).mp h with ⟨hquery, hrefused⟩
  exact ⟨hquery, hrefused.grounds hroot⟩

/-- A read is refused for want of a capable connector exactly if some branch is not covered,
    with nothing planned yet, and then exactly with what is reported of the branches. -/
theorem coverage_failure_iff (config : PlannerConfig) (query : QueryId) (w : Workflow)
    (s : Snapshot) :
    ((∃ e table step required, planSelect config query w s = .error e ∧
        e.cause = .noCapableConnector table step required) ↔
      ∃ t ∈ w.initialSteps, Uncovered s w t) ∧
    ∀ e table step required, (planSelect config query w s = .error e ∧
        e.cause = .noCapableConnector table step required) ↔
      e = ⟨query, .unplanned, .noCapableConnector table step required⟩ ∧
        CoverageFault s w table step required := by
  have hfaults : ∀ e table step required, (planSelect config query w s = .error e ∧
      e.cause = .noCapableConnector table step required) ↔
        e = ⟨query, .unplanned, .noCapableConnector table step required⟩ ∧
          CoverageFault s w table step required := by
    intro e table step required
    constructor
    · rintro ⟨h, hcause⟩
      rcases planSelect_grounds config query w s e h with ⟨hquery, hgrounds⟩
      rcases e with ⟨q, phase, cause⟩
      cases hquery
      cases hcause
      cases hgrounds with
      | uncovered _ _ _ hfault => exact ⟨rfl, hfault⟩
    · rintro ⟨rfl, hfault⟩
      rcases Workflow.exists_root w with ⟨root, hroot⟩
      refine ⟨(planSelect_eq_error config query w s root hroot _).mpr ⟨rfl, ?_⟩, rfl⟩
      exact Refused.uncovered _ ((branchesOf_eq_error_iff s w _).mpr ⟨_, _, _, rfl, hfault⟩)
  refine ⟨?_, hfaults⟩
  rw [← exists_fault_iff]
  constructor
  · rintro ⟨e, table, step, required, h⟩
    exact ⟨table, step, required, ((hfaults e table step required).mp h).2⟩
  · rintro ⟨table, step, required, hfault⟩
    exact ⟨_, table, step, required, (hfaults _ table step required).mpr ⟨rfl, hfault⟩⟩

/-- Nobody can scan the orders. -/
example : planSelect .default ⟨"q"⟩ joinedRead (eastAndWest [⟨"a"⟩] [])
    = .error ⟨⟨"q"⟩, .unplanned, .noCapableConnector ⟨⟨"shop"⟩, "orders"⟩ 1 [.scan]⟩ := rfl

end Federation
