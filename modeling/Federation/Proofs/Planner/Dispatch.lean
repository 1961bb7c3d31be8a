import Federation.Proofs.Planner.Outcome

/-!
# Whatever Is Sent Can Be Executed

A connector comes to be sent steps in four ways: chosen for a whole workflow,
chosen for the table of a branch, taken over from the native join that a branch or
a join leads to, or picked to merge partial results. In each it can run every step
that it is sent, as far as the plan knows what it declares.

Only the first way needs more than the plan itself. The connector of a whole
workflow came down one side of each join, and what it is to run on the other side
was covered by a copy of it; that the copy declares the same is what a snapshot
guarantees.

## Main definitions

* `Plan.dispatches`: What is sent, with the connectors as the plan knows them.

## Theorems

* `units_eq`: The units of a plan are what is sent.
* `part_runs`: A connector of a part can run the stretch it starts with.
* `stage_runs`: The connector of a stage can run all of the stage.
* `dispatched_executable`: Whatever is sent can be executed.
-/

namespace Federation

/-- What is sent, with the connectors as the plan knows them. -/
def Plan.dispatches : Plan → List (Connector × List Nat)
  | .single p => [(p.connector, p.steps)]
  | .multi p =>
    p.branches.map (fun b => (b.connector, b.branch.steps))
      ++ p.stages.filterMap fun st => st.executor.connector?.map fun c => (c, st.steps)
  | .storage p => [(p.connector, [])]

/-- A unit is what is sent, with the connector by name and address. -/
theorem units_eq (p : Plan) : p.units = p.dispatches.map fun d => d.1.unit d.2 := by
  cases p with
  | single p => rfl
  | storage p => rfl
  | multi p =>
      unfold Plan.units Plan.dispatches
      simp only
      rw [List.map_append, List.map_map, List.map_filterMap]
      simp only [Option.map_map]
      rfl

/-- A connector of a part can run the stretch of the scan or join it ends with. -/
theorem part_runs (s : Snapshot) (w : Workflow) (t : Nat) (ht : t ∈ w.starts) (f : Fragment)
    (hf : partOf? s w t = some f) (c : Connector) (hc : c ∈ f.connectors) :
    w.canRunAll (w.stretch t) c = true := by
  rcases (Workflow.mem_starts w t).mp ht with hscan | hjoin
  · rw [partOf?_scan s w t hscan, Option.some.injEq] at hf
    rw [← hf] at hc
    exact (covers_scan s w t c hc).runs
  · rcases Workflow.feeders_pair w t hjoin with ⟨a, b, hpair⟩
    rcases (partOf?_join s w t a b hjoin hpair f).mp hf with ⟨left, right, _, _, rfl⟩
    exact ((mem_joined w t left right c).mp hc).2.2

-- The connector of a whole workflow can run every step of it.
theorem root_part_runs (s : Snapshot) (w : Workflow) (hone : s.OneDeclaration) (root : Nat)
    (hroot : w.IsRoot root) (f : Fragment) (hf : partOf? s w root = some f) (c : Connector)
    (hc : c ∈ f.connectors) : ∀ t ∈ w.starts, w.canRunAll (w.stretch t) c = true := by
  intro t ht
  rcases part_covers s w root hroot.mem f hf c hc with ⟨hlisted, hcovers⟩
  rcases hcovers t ht (Workflow.feeds_root w root hroot t ht) with ⟨d, hname, hd⟩
  -- What the copy can run is a matter of what it declares.
  rw [Workflow.canRunAll_congr w c d _ (hone c d hlisted hd.listed hname.symm)]
  exact hd.runs

/-- The connector of a stage can run all of the stage. -/
theorem stage_runs (s : Snapshot) (w : Workflow) (branches : List AssignedBranch)
    (settled : List (Nat × Connector)) (hsettled : settle (natives s w) = .ok settled)
    (before : List Stage) (stage : Stage) (hjoin : stage.join ∈ w.joins)
    (h : StageOf w branches settled before stage.join stage) (c : Connector)
    (capability : Capability) (hc : stage.executor = .connector c capability) :
    w.canRunAll stage.steps c = true := by
  rcases h.executor c capability hc with ⟨⟨step, hstep, hmem⟩, hsupports, hsettle | hafter⟩
  · rcases settle_lookup _ settled hsettled stage.join c hsettle with ⟨f, hf, hcf⟩
    rw [← partOf?_lookup s w stage.join hjoin] at hf
    rw [h.steps_eq]
    exact part_runs s w stage.join (Workflow.mem_starts_of_join w _ hjoin) f hf c hcf
  · rw [h.steps_eq]
    unfold Workflow.stretch
    rw [Workflow.canRunAll_iff, List.forall_mem_cons]
    exact ⟨(Workflow.canRunAt_iff w c _).mpr ⟨step, hstep, (canRun_iff c step).mpr
      ⟨capability, hmem, hsupports⟩⟩, (Workflow.canRunAll_iff w _ c).mp hafter⟩

-- Whatever is sent to a connector can be executed there.
theorem dispatches_run (config : PlannerConfig) (query : QueryId) (w : Workflow) (s : Snapshot)
    (hone : s.OneDeclaration) (p : Plan) (hp : planSelect config query w s = .ok p) :
    ∀ d ∈ p.dispatches, w.canRunAll d.2 d.1 = true := by
  rcases Workflow.exists_root w with ⟨root, hroot⟩
  rcases (planSelect_eq_ok config query w s root hroot p).mp hp with ⟨_, hplanned⟩
  intro d hd
  cases hplanned with
  | whole f c hf hchoice =>
      rw [List.mem_singleton.mp hd, Workflow.canRunAll_iff]
      intro id hid
      -- Every step is on some stretch.
      rcases Workflow.exists_start w id (List.mem_range.mp hid) with ⟨t, ht, hmem⟩
      exact (Workflow.canRunAll_iff w _ c).mp (root_part_runs s w hone root hroot f hf c
        ((choose_fragment f c).mp hchoice).2.1 t ht) id hmem
  | split settled assigned stages _ hsettled hassigned hstages _ =>
      rcases assigned_branches settled _ assigned hassigned with ⟨hbranches, hconnectors⟩
      rcases List.mem_append.mp hd with hd | hd
      · rcases List.mem_map.mp hd with ⟨a, ha, rfl⟩
        rcases mem_assigned s w assigned hbranches a ha with ⟨t, _, heq⟩
        have hc := hconnectors a ha
        rw [heq] at hc ⊢
        exact (covers_scan s w t _ hc).runs
      · rcases List.mem_filterMap.mp hd with ⟨stage, hstage, h⟩
        rcases Option.map_eq_some_iff.mp h with ⟨c, hc, rfl⟩
        rcases List.mem_iff_getElem?.mp hstage with ⟨i, hi⟩
        rcases (mergeStages_spec _ w assigned settled stages hstages).2 i stage hi with
          ⟨hjoin, hspec⟩
        cases hexecutor : stage.executor with
        | coordinator =>
            rw [hexecutor] at hc
            cases hc
        | connector e capability =>
            rw [hexecutor] at hc
            cases hc
            exact stage_runs s w assigned settled hsettled _ stage
              (List.mem_of_getElem? hjoin) hspec c capability hexecutor

-- The connector of a stage joins with a capability that it declares and that the
-- join accepts.
theorem stage_capability (config : PlannerConfig) (query : QueryId) (w : Workflow)
    (s : Snapshot) (m : MultiPlan) (hp : planSelect config query w s = .ok (.multi m)) :
    ∀ stage ∈ m.stages, ∀ c capability, stage.executor = .connector c capability →
      c.supports capability = true ∧
        ∃ step, w.step? stage.join = some step ∧ capability ∈ step.alternatives := by
  rcases Workflow.exists_root w with ⟨root, hroot⟩
  rcases (planSelect_eq_ok config query w s root hroot _).mp hp with ⟨_, hplanned⟩
  intro stage hstage c capability hc
  cases hplanned with
  | split settled assigned stages _ _ _ hstages _ =>
      rcases List.mem_iff_getElem?.mp hstage with ⟨i, hi⟩
      rcases (mergeStages_spec _ w assigned settled stages hstages).2 i stage hi with ⟨_, hspec⟩
      rcases hspec.executor c capability hc with ⟨hstep, hsupports, _⟩
      exact ⟨hsupports, hstep⟩

/-- Every step is sent to a connector that declares an alternative of it, and every
    join is executed with a capability that the connector declares and the join
    accepts. -/
theorem dispatched_executable (config : PlannerConfig) (query : QueryId) (w : Workflow)
    (r : Registry) (clusters : List ClusterName) (tables : List TableName) (s : Snapshot)
    (hs : (Snapshot.capture r clusters tables).value = .ok s) (p : Plan)
    (hp : planSelect config query w s = .ok p) :
    p.units = p.dispatches.map (fun d => d.1.unit d.2) ∧
      (∀ d ∈ p.dispatches, ∀ id ∈ d.2, ∃ step, w.step? id = some step ∧
        ∃ a ∈ step.alternatives, d.1.supports a = true) ∧
      ∀ m, p = .multi m → ∀ stage ∈ m.stages, ∀ c capability,
        stage.executor = .connector c capability → c.supports capability = true ∧
          ∃ step, w.step? stage.join = some step ∧ capability ∈ step.alternatives := by
  refine ⟨units_eq p, fun d hd id hid => ?_, fun m hm => ?_⟩
  · have hrun := dispatches_run config query w s (capture_oneDeclaration r clusters tables s hs)
      p hp d hd
    rcases (Workflow.canRunAt_iff w d.1 id).mp ((Workflow.canRunAll_iff w _ _).mp hrun id hid) with
      ⟨step, hstep, hcan⟩
    exact ⟨step, hstep, (canRun_iff d.1 step).mp hcan⟩
  · rw [hm] at hp
    exact stage_capability config query w s m hp

/-- The connector of the users, which joins them with the orders, declares that it
    takes partial results, and each of the steps it is sent is one it can execute. -/
theorem dispatched_divided :
    (∀ d ∈ (Plan.multi dividedPlan).dispatches, ∀ id ∈ d.2,
        ∃ step, joinedRead.step? id = some step ∧ ∃ a ∈ step.alternatives, d.1.supports a = true) ∧
      (Connector.universal ⟨"a"⟩).supports .selectInnerJoinPartialResults = true := by
  have h := dispatched_executable .default ⟨"q"⟩ joinedRead
    (.universal fun k => if k = ⟨"east"⟩ then [⟨"a"⟩] else [⟨"b"⟩]) joinedRead.clusters []
    (eastAndWest [⟨"a"⟩] [⟨"b"⟩]) rfl (.multi dividedPlan) rfl
  exact ⟨h.2.1, (h.2.2 dividedPlan rfl _ List.mem_cons_self _ _ rfl).1⟩

end Federation
