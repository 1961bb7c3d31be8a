import Federation.Proofs.Meaning.Value
import Federation.Proofs.Planner.Outcome

/-!
# Plans Compute What They Were Made For

A plan in branches is executed from front to back. A branch starts with the value
of its scan and sends it through its other steps. A stage joins what is found at
its inputs, results of branches or of earlier stages, and sends that through its
other steps. The result of the last stage is the result of the plan.

A workflow is evaluated the other way round, from the terminal upwards, and knows
neither places nor an order of joins. The two meet at the ends of stretches: after
each stage the results so far are the values at the ends of the stretches that
start at the scans and at the joins up to there, place by place. What a stage finds
at its inputs are then the values of the inputs of its join, though perhaps the
other way round, which a join does not mind; and the last join is the one whose
stretch ends at the terminal. Who executes a stage makes no difference.

## Main definitions

* `MultiPlan.run`: The result of a plan in branches.

## Theorems

* `branches_run`: A branch gives the value at the end of its stretch.
* `stage_run`: So does a stage, if those before it do.
* `run_eq_value`: The result of a plan is the value of the workflow.
-/

namespace Federation

variable {α : Type*}

/-- What is found at an input of a stage, given results of branches and stages. -/
def StageInput.resultIn (branches stages : List α) : StageInput → Option α
  | .branch index => branches[index]?
  | .stage index => stages[index]?

/-- The result of some steps: what the first makes of some values, sent through the
    others. -/
def Interpretation.resultOf (I : Interpretation α) (w : Workflow) (first : Nat)
    (steps : List Nat) (values : List α) : Option α :=
  (I.apply w first values).bind fun a => I.along w a steps.tail

/-- The result of a stage, given the results of the branches and of the stages before
    it. -/
def Interpretation.stageResult (I : Interpretation α) (w : Workflow) (branches : List α)
    (before : List α) (stage : Stage) : Option α :=
  (stage.inputs.mapM (StageInput.resultIn branches before)).bind
    (I.resultOf w stage.join stage.steps)

/-- The result of a plan in branches: that of its last stage. -/
def MultiPlan.run (p : MultiPlan) (I : Interpretation α) : Option α := do
  let branches ← p.branches.mapM fun b =>
    I.resultOf p.workflow b.branch.initial b.branch.steps []
  let stages ← p.stages.foldlM
    (fun before stage => do return before ++ [← I.stageResult p.workflow branches before stage])
    []
  stages.getLast?

-- The stretch of a step gives the value at its end, if the step is given the values
-- of its inputs.
theorem resultOf_stretch (w : Workflow) (I : Interpretation α) (value : Nat → α)
    (hvalue : ∀ id < w.size, I.apply w id ((w.inputs id).map value) = some (value id))
    (id : Nat) (hid : id < w.size) (values : List α)
    (h : I.apply w id values = I.apply w id ((w.inputs id).map value)) :
    I.resultOf w id (w.stretch id) values = some (value (w.stretchEnd id)) := by
  unfold Interpretation.resultOf
  rw [h, hvalue id hid, Option.bind_some]
  exact Workflow.along_stretch w I value hvalue id hid

/-- The branches give the values at the ends of the stretches of the scans. -/
theorem branches_run (s : Snapshot) (w : Workflow) (I : Interpretation α) (value : Nat → α)
    (hvalue : ∀ id < w.size, I.apply w id ((w.inputs id).map value) = some (value id))
    (assigned : List AssignedBranch)
    (h : assigned.map AssignedBranch.branch = w.scans.map (wholeBranch s w)) :
    (assigned.mapM fun b => I.resultOf w b.branch.initial b.branch.steps [])
      = some (w.scans.map fun t => value (w.stretchEnd t)) := by
  have hresult : ∀ t ∈ w.scans, I.resultOf w t (w.stretch t) []
      = some (value (w.stretchEnd t)) := fun t ht =>
    resultOf_stretch w I value hvalue t (Graph.lt_of_mem_scans _ t ht) [] (by
      rw [Workflow.inputs_scan w t ht]
      rfl)
  have hmap : (assigned.mapM fun b => I.resultOf w b.branch.initial b.branch.steps [])
      = (assigned.map AssignedBranch.branch).mapM fun b => I.resultOf w b.initial b.steps [] := by
    rw [List.mapM_map]
    rfl
  rw [hmap, h, List.mapM_map]
  exact mapM_eq_some _ _ w.scans hresult

/-- A stage gives the value at the end of the stretch of its join, if the stages before
    it give those of the joins before. -/
theorem stage_run (s : Snapshot) (w : Workflow) (I : Interpretation α) (value : Nat → α)
    (hvalue : ∀ id < w.size, I.apply w id ((w.inputs id).map value) = some (value id))
    (assigned : List AssignedBranch) (settled : List (Nat × Connector)) (before : List Stage)
    (h : assigned.map AssignedBranch.branch = w.scans.map (wholeBranch s w)) (n : Nat)
    (hbefore : before.map Stage.join = w.joins.take n) (stage : Stage)
    (hn : w.joins[n]? = some stage.join)
    (hstage : StageOf w assigned settled before stage.join stage) :
    I.stageResult w (w.scans.map fun t => value (w.stretchEnd t))
        ((w.joins.take n).map fun t => value (w.stretchEnd t)) stage
      = some (value (w.stretchEnd stage.join)) := by
  have hjoin := List.mem_of_getElem? hn
  have hfound := feedsOf_mapM s w assigned before n stage.join hn h hbefore
    (StageInput.resultIn (w.scans.map fun t => value (w.stretchEnd t))
      ((w.joins.take n).map fun t => value (w.stretchEnd t)))
    (fun t => value (w.stretchEnd t))
    (fun i t ht => by
      show (w.scans.map _)[i]? = _
      rw [List.getElem?_map, ht]
      rfl)
    (fun i t ht => by
      show ((w.joins.take n).map _)[i]? = _
      rw [List.getElem?_map, ht]
      rfl)
  unfold Interpretation.stageResult
  rw [hstage.inputs_eq, hfound, Option.bind_some, hstage.steps_eq]
  refine resultOf_stretch w I value hvalue stage.join (Graph.lt_of_mem_joins _ _ hjoin) _ ?_
  -- The stretches that lead to a join end at its inputs.
  have hperm := (Workflow.feeders_perm w stage.join hjoin).map value
  rw [List.map_map] at hperm
  rcases Workflow.inputs_join w stage.join hjoin with ⟨a, b, hab⟩
  rw [hab] at hperm ⊢
  exact I.apply_perm w stage.join _ (value a) (value b) hperm

/-- The result of a plan in branches is the value of the workflow at its terminal,
    whatever the steps mean. -/
theorem run_eq_value (config : PlannerConfig) (query : QueryId) (w : Workflow) (s : Snapshot)
    (p : MultiPlan) (hp : planSelect config query w s = .ok (.multi p)) (I : Interpretation α) :
    ∃ v, w.valueAt I w.terminal = some v ∧ p.run I = some v := by
  rcases Workflow.exists_root w with ⟨root, hroot⟩
  rcases (planSelect_eq_ok config query w s root hroot _).mp hp with ⟨_, hplanned⟩
  rcases Workflow.exists_values w I with ⟨value, hvalues⟩
  have hvalue := fun id hid => (hvalues id hid).2
  cases hplanned with
  | split settled assigned stages hpart _ hassigned hstages _ =>
      rcases assigned_branches settled _ assigned hassigned with ⟨hbranches, _⟩
      rcases mergeStages_spec _ w assigned settled stages hstages with ⟨hjoins, hplaces⟩
      refine ⟨value w.terminal, (hvalues _ (Workflow.terminal_spec w).1).1, ?_⟩
      -- Stage by stage, the results are the values at the ends of the stretches.
      have hrun := foldlM_snoc_eq_some
        (I.stageResult w (w.scans.map fun t => value (w.stretchEnd t))) stages []
        (w.joins.map fun t => value (w.stretchEnd t))
        (by rw [← hjoins, List.length_map, List.length_map]) fun i stage v hi hv => by
          rcases hplaces i stage hi with ⟨hjoin, hspec⟩
          rw [List.getElem?_map, hjoin, Option.map_some, Option.some.injEq] at hv
          rw [List.nil_append, ← hv, ← List.map_take]
          exact stage_run s w I value hvalue assigned settled _ hbranches i
            (by rw [← hjoins, List.map_take]) stage hjoin hspec
      rw [List.nil_append] at hrun
      have hlast := joins_getLast? w root hroot (root_mem_joins_of_none s w root hroot hpart)
      unfold MultiPlan.run
      simp only
      rw [branches_run s w I value hvalue assigned hbranches]
      show Option.bind (stages.foldlM _ []) _ = _
      rw [hrun, Option.bind_some, List.getLast?_map, hlast, ← hroot.stretchEnd_eq]
      rfl

/-- A bound on the rows of each step, for scans of so many rows. -/
def rowBound (rows : Nat → Nat) : Interpretation Nat where
  scan := rows
  transform := fun _ n => n
  join := fun _ m n => m * n
  join_comm := fun _ m n => Nat.mul_comm m n

/-- What is found for users and orders by executing their plan holds of the join that
    the plan was made for. -/
theorem run_divided :
    dividedPlan.run (rowBound (· + 2)) = some 6 ∧
      joinedRead.valueAt (rowBound (· + 2)) joinedRead.terminal = some 6 := by
  have hrun : dividedPlan.run (rowBound (· + 2)) = some 6 := rfl
  rcases run_eq_value .default ⟨"q"⟩ joinedRead (eastAndWest [⟨"a"⟩] [⟨"b"⟩]) dividedPlan rfl
    (rowBound (· + 2)) with ⟨v, hvalue, hv⟩
  rw [hrun] at hv
  exact ⟨hrun, hvalue.trans hv.symm⟩

end Federation
