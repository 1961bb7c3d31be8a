import Federation.Proofs.Planner.Whole

/-!
# When a Read Can Be Planned

A read can fail at five points: a scan without candidates, a branch that no
connector can carry to its join, a choice for a native join, a choice for the table
of a branch, and the limit on stages. Where names are not ambiguous the choices
always succeed, since nothing is ever chosen from an empty list; the first two
points are one condition on each branch by itself, and the limit matters only for a
workflow that no single connector could execute.

So whether a read can be planned is told without any of the lists the planner
makes: by the steps that follow each scan, by the connectors attached to its
cluster, and by the number of joins. The branch of a scan is defined here by the
links of the workflow alone and shown to be the stretch that the planner walks.

## Main definitions

* `OnBranch`: The steps of a branch, link by link.
* `BranchesCovered`: Each branch has a connector of its cluster for all its steps.

## Theorems

* `onBranch_iff`: A branch is the stretch of its scan.
* `branchesCovered_iff`: When each scan has a connector for its stretch.
* `planned_iff_feasible`: When a read can be planned.
* `feasible_with_room`: One join needs room for one stage.
-/

namespace Federation

namespace Workflow

/-- The steps of the branch of a scan: the scan, and what a step of the branch leads
    to unless it is a join. -/
inductive OnBranch (w : Workflow) (scan : Nat) : Nat → Prop
  | start : OnBranch w scan scan
  | next (u v : Nat) (hu : OnBranch w scan u) (hnext : w.next? u = some v)
      (hjoin : v ∉ w.joins) : OnBranch w scan v

/-- The branch of a scan is its stretch. -/
theorem onBranch_iff (w : Workflow) (t : Nat) (ht : t < w.size) (v : Nat) :
    w.OnBranch t v ↔ v ∈ w.stretch t := by
  constructor
  · intro h
    induction h with
    | start => exact mem_stretch_self w t
    | next u v _ hnext hjoin ih => exact next?_mem_stretch w t ht u ih v hnext hjoin
  · -- Each step is entered from a step of a smaller number.
    induction v using Nat.strongRecOn with
    | _ v ih =>
      intro hv
      rcases start_or_entered w t ht v hv with rfl | ⟨hjoin, u, hu, hnext⟩
      · exact OnBranch.start
      · exact OnBranch.next u v (ih u (next?_lt hnext).1 hu) hnext hjoin

end Workflow

/-- Whether for each scan one connector attached to its cluster declares an
    alternative of every step of its branch. -/
def BranchesCovered (s : Snapshot) (w : Workflow) : Prop :=
  ∀ t table cluster columns, w.step? t = some (.scan table cluster columns) →
    ∃ c ∈ s.connectorsOf cluster, ∀ v, w.OnBranch t v →
      ∃ step, w.step? v = some step ∧ ∃ a ∈ step.alternatives, c.supports a = true

-- A connector can run a stretch if it declares an alternative of every step of the
-- branch.
theorem canRunAll_stretch_iff (w : Workflow) (t : Nat) (ht : t < w.size) (c : Connector) :
    w.canRunAll (w.stretch t) c = true ↔ ∀ v, w.OnBranch t v →
      ∃ step, w.step? v = some step ∧ ∃ a ∈ step.alternatives, c.supports a = true := by
  rw [Workflow.canRunAll_iff]
  refine forall_congr' fun v => ?_
  rw [Workflow.onBranch_iff w t ht v, Workflow.canRunAt_iff]
  simp only [canRun_iff]

/-- Where tables are read on one cluster only, each branch is covered exactly if each
    scan has a connector for its stretch. -/
theorem branchesCovered_iff (s : Snapshot) (w : Workflow) (hhome : w.OneHome) :
    BranchesCovered s w ↔ ∀ t ∈ w.scans, branchConnectors s w t ≠ [] := by
  have hscan : ∀ t table cluster columns, w.step? t = some (.scan table cluster columns) →
      (branchConnectors s w t ≠ [] ↔ ∃ c ∈ s.connectorsOf cluster, ∀ v, w.OnBranch t v →
        ∃ step, w.step? v = some step ∧ ∃ a ∈ step.alternatives, c.supports a = true) := by
    intro t table cluster columns h
    have hruns := canRunAll_stretch_iff w t (Graph.step?_eq_some_lt h)
    unfold branchConnectors
    rw [Workflow.home_eq w hhome t table cluster columns h]
    constructor
    · intro hne
      rcases List.exists_mem_of_ne_nil _ hne with ⟨c, hc⟩
      rcases List.mem_filter.mp hc with ⟨hlisted, hrun⟩
      exact ⟨c, hlisted, (hruns c).mp hrun⟩
    · rintro ⟨c, hlisted, hrun⟩
      exact List.ne_nil_of_mem (List.mem_filter.mpr ⟨hlisted, (hruns c).mpr hrun⟩)
  constructor
  · intro hcovered t ht
    rcases (Graph.mem_scans _ t).mp ht with ⟨table, cluster, columns, h⟩
    exact (hscan t table cluster columns h).mpr (hcovered t table cluster columns h)
  · intro hall t table cluster columns h
    exact (hscan t table cluster columns h).mp
      (hall t ((Graph.mem_scans _ t).mpr ⟨table, cluster, columns, h⟩))

-- A plan in branches has a stage for each join, and is not made where one connector
-- would do.
theorem full_or_room (config : PlannerConfig) (query : QueryId) (w : Workflow) (s : Snapshot)
    (hhome : w.OneHome) (hone : s.OneDefinition) (p : Plan)
    (hp : planSelect config query w s = .ok p) :
    (∃ c, Full s w c) ∨ w.joins.length ≤ config.maxStages := by
  rcases Workflow.exists_root w with ⟨root, hroot⟩
  rcases (planSelect_eq_ok config query w s root hroot p).mp hp with ⟨_, hplanned⟩
  cases hplanned with
  | whole f c hf hchoice =>
      have hc := ((choose_fragment f c).mp hchoice).2.1
      exact Or.inl ⟨c, (mem_root_part s w hhome hone root hroot c).mp ⟨f, hf, hc⟩⟩
  | split settled assigned stages _ _ _ hstages hlimit =>
      refine Or.inr ?_
      rw [← (mergeStages_spec _ w assigned settled stages hstages).1, List.length_map]
      exact hlimit

/-- With a coordinator to fall back on a read can be planned exactly if each branch is
    covered by a connector of its cluster, and either one connector could execute all
    of the workflow or there is room for a stage for each join. -/
theorem planned_iff_feasible (config : PlannerConfig) (query : QueryId) (w : Workflow)
    (s : Snapshot) (hhome : w.OneHome) (hone : s.OneDefinition)
    (hfallback : config.fallback = .coordinator) :
    (∃ p, planSelect config query w s = .ok p) ↔
      BranchesCovered s w ∧ ((∃ c, Full s w c) ∨ w.joins.length ≤ config.maxStages) := by
  rw [branchesCovered_iff s w hhome]
  constructor
  · rintro ⟨p, hp⟩
    rcases Workflow.exists_root w with ⟨root, hroot⟩
    exact ⟨((planSelect_eq_ok config query w s root hroot p).mp hp).1,
      full_or_room config query w s hhome hone p hp⟩
  · rintro ⟨hscans, hfull | hroom⟩
    · rcases hfull with ⟨c, hc⟩
      rcases whole_of_full config query w s hhome hone c hc with ⟨least, _, _, hp⟩
      exact ⟨_, hp⟩
    · exact planSelect_succeeds config query w s hone hscans hfallback hroom

/-- Users and orders, on clusters that have no connector in common, can be joined if
    one stage is allowed, and not if none is. -/
theorem feasible_with_room :
    joinedRead.OneHome ∧ (eastAndWest [⟨"a"⟩] [⟨"b"⟩]).OneDefinition ∧
      (∃ p, planSelect ⟨.coordinator, 1⟩ ⟨"q"⟩ joinedRead (eastAndWest [⟨"a"⟩] [⟨"b"⟩]) = .ok p) ∧
        ¬∃ p, planSelect ⟨.coordinator, 0⟩ ⟨"q"⟩ joinedRead (eastAndWest [⟨"a"⟩] [⟨"b"⟩])
          = .ok p := by
  have hhome : joinedRead.OneHome := by decide
  have hone : (eastAndWest [⟨"a"⟩] [⟨"b"⟩]).OneDefinition := by decide
  have hcovered : BranchesCovered (eastAndWest [⟨"a"⟩] [⟨"b"⟩]) joinedRead :=
    (branchesCovered_iff _ _ hhome).mpr (by decide)
  refine ⟨hhome, hone, (planned_iff_feasible ⟨.coordinator, 1⟩ ⟨"q"⟩ _ _ hhome hone rfl).mpr
    ⟨hcovered, Or.inr (by decide)⟩, fun hplanned => ?_⟩
  rcases (planned_iff_feasible ⟨.coordinator, 0⟩ ⟨"q"⟩ _ _ hhome hone rfl).mp hplanned with
    ⟨_, ⟨c, hc⟩ | hroom⟩
  · -- The connector of the users is not listed with the orders.
    have husers := hc.attached 0 _ _ _ rfl
    have horders := hc.attached 1 _ _ _ rfl
    rw [List.mem_singleton.mp husers] at horders
    exact absurd (List.mem_singleton.mp horders) (by decide)
  · exact absurd hroom (by decide)

end Federation
