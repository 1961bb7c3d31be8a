import Federation.Planner
import Federation.Proofs.Planner.Stages

/-!
# What Becomes of a Read

A read is planned exactly if every scan has a connector for its stretch and the
rest of the work succeeds. If the part that ends at the terminal has connectors
of its own, it is the whole workflow and goes to the one chosen for it; if not,
the workflow goes in branches and stages. Which of the two happens depends neither
on the settings nor on how the choices turn out, so a plan in branches is never
made where one connector would do.

With one definition for each name no choice is ambiguous, and with a coordinator
and room for enough stages nothing is left that could fail.

## Main definitions

* `Planned`: What a plan of a read is.

## Theorems

* `planSelect_eq_ok`: When a read is planned, and how.
* `planSelect_succeeds`: What suffices for a plan.
* `root_mem_joins_of_none`: A plan in branches ends with a join.
-/

namespace Federation

/-- What a plan of a read is: the whole workflow on one connector, if it ends with
    a part that has connectors, and branches and stages otherwise. -/
inductive Planned (config : PlannerConfig) (query : QueryId) (w : Workflow) (s : Snapshot)
    (root : Nat) : Plan → Prop
  | whole (f : Fragment) (c : Connector) (hpart : partOf? s w root = some f)
      (hchoice : choose f.candidates = .ok c) :
      Planned config query w s root (.single ⟨query, c, w.initialSteps, w.terminal, w.ids, w⟩)
  | split (settled : List (Nat × Connector)) (assigned : List AssignedBranch)
      (stages : List Stage) (hpart : partOf? s w root = none)
      (hsettled : settle (natives s w) = .ok settled)
      (hassigned : (w.scans.map (wholeBranch s w)).mapM (assign settled) = .ok assigned)
      (hstages : mergeStages config.fallback w assigned settled = .ok stages)
      (hlimit : stages.length ≤ config.maxStages) :
      Planned config query w s root (.multi ⟨query, assigned, stages, w⟩)

theorem during_eq_ok {α : Type} (query : QueryId) (phase : Phase)
    (result : Except PlanningCause α) (a : α) :
    during query phase result = .ok a ↔ result = .ok a := by
  cases result with
  | error cause => exact ⟨fun h => (nomatch h), fun h => (nomatch h)⟩
  | ok b => exact ⟨fun h => by cases h; rfl, fun h => by cases h; rfl⟩

theorem wholePlan_eq_ok (query : QueryId) (w : Workflow) (f : Fragment) (p : Plan) :
    wholePlan query w f = .ok p ↔ ∃ c, choose f.candidates = .ok c ∧
      p = .single ⟨query, c, w.initialSteps, w.terminal, w.ids, w⟩ := by
  unfold wholePlan
  rw [bind_eq_ok]
  refine exists_congr fun c => and_congr_right fun _ => ?_
  exact ⟨fun h => by cases h; rfl, fun h => by rw [h]; rfl⟩

theorem splitPlan_eq_ok (fallback : MergeFallback) (query : QueryId) (w : Workflow)
    (branches : List Branch) (native : List (Nat × Fragment)) (p : MultiPlan) :
    splitPlan fallback query w branches native = .ok p ↔
      ∃ settled assigned stages, settle native = .ok settled ∧
        branches.mapM (assign settled) = .ok assigned ∧
          mergeStages fallback w assigned settled = .ok stages ∧
            p = ⟨query, assigned, stages, w⟩ := by
  unfold splitPlan
  rw [bind_eq_ok]
  constructor
  · rintro ⟨settled, hsettled, h⟩
    rcases (bind_eq_ok _ _ _).mp h with ⟨assigned, hassigned, h⟩
    rcases (bind_eq_ok _ _ _).mp h with ⟨stages, hstages, h⟩
    cases h
    exact ⟨settled, assigned, stages, hsettled, hassigned, hstages, rfl⟩
  · rintro ⟨settled, assigned, stages, hsettled, hassigned, hstages, rfl⟩
    refine ⟨settled, hsettled, (bind_eq_ok _ _ _).mpr ⟨assigned, hassigned, ?_⟩⟩
    exact (bind_eq_ok _ _ _).mpr ⟨stages, hstages, rfl⟩

theorem limitStages_eq_ok (config : PlannerConfig) (m : MultiPlan) (p : Plan) :
    limitStages config m = .ok p ↔ m.stages.length ≤ config.maxStages ∧ p = .multi m := by
  unfold limitStages
  by_cases hlimit : config.maxStages < m.stages.length
  · rw [if_pos hlimit]
    exact ⟨fun h => (nomatch h), fun h => absurd hlimit (Nat.not_lt.mpr h.1)⟩
  · rw [if_neg hlimit]
    exact ⟨fun h => ⟨Nat.not_lt.mp hlimit, by cases h; rfl⟩, fun h => by rw [h.2]⟩

/-- When a read is planned, and how. -/
theorem planSelect_eq_ok (config : PlannerConfig) (query : QueryId) (w : Workflow)
    (s : Snapshot) (root : Nat) (hroot : w.IsRoot root) (p : Plan) :
    planSelect config query w s = .ok p ↔
      (∀ t ∈ w.scans, branchConnectors s w t ≠ []) ∧ Planned config query w s root p := by
  -- Planned in full, the branches have the part that ends the workflow for a whole.
  have hwhole := wholeFragment?_eq s w root hroot
  unfold natives at hwhole
  unfold planSelect
  rw [bind_eq_ok]
  constructor
  · rintro ⟨branches, hbranches, h⟩
    rcases (branchesOf_eq_ok s w branches).mp ((during_eq_ok _ _ _ _).mp hbranches) with
      ⟨hscans, rfl⟩
    refine ⟨hscans, ?_⟩
    simp only [hwhole] at h
    cases hpart : partOf? s w root with
    | some f =>
        rw [hpart] at h
        rcases (wholePlan_eq_ok query w f p).mp ((during_eq_ok _ _ _ _).mp h) with ⟨c, hc, rfl⟩
        exact Planned.whole f c hpart hc
    | none =>
        rw [hpart] at h
        rcases (bind_eq_ok _ _ _).mp h with ⟨m, hm, h⟩
        rcases (splitPlan_eq_ok _ _ _ _ _ m).mp ((during_eq_ok _ _ _ _).mp hm) with
          ⟨settled, assigned, stages, hsettled, hassigned, hstages, rfl⟩
        rcases (limitStages_eq_ok _ _ p).mp ((during_eq_ok _ _ _ _).mp h) with ⟨hlimit, rfl⟩
        exact Planned.split settled assigned stages hpart hsettled hassigned hstages hlimit
  · rintro ⟨hscans, hplanned⟩
    refine ⟨_, (during_eq_ok _ _ _ _).mpr ((branchesOf_eq_ok s w _).mpr ⟨hscans, rfl⟩), ?_⟩
    simp only [hwhole]
    cases hplanned with
    | whole f c hpart hc =>
        rw [hpart]
        exact (during_eq_ok _ _ _ _).mpr ((wholePlan_eq_ok query w f _).mpr ⟨c, hc, rfl⟩)
    | split settled assigned stages hpart hsettled hassigned hstages hlimit =>
        rw [hpart]
        have hsplit := (splitPlan_eq_ok config.fallback query w _ _ _).mpr
          ⟨settled, assigned, stages, hsettled, hassigned, hstages, rfl⟩
        exact (bind_eq_ok _ _ _).mpr ⟨_, (during_eq_ok _ _ _ _).mpr hsplit,
          (during_eq_ok _ _ _ _).mpr ((limitStages_eq_ok config _ _).mpr ⟨hlimit, rfl⟩)⟩

/-- A workflow that does not go to one connector ends with a join. -/
theorem root_mem_joins_of_none (s : Snapshot) (w : Workflow) (root : Nat)
    (hroot : w.IsRoot root) (hnone : partOf? s w root = none) : root ∈ w.joins := by
  rcases (Workflow.mem_starts w root).mp hroot.mem with hscan | hjoin
  · rw [partOf?_scan s w root hscan] at hnone
    cases hnone
  · exact hjoin

-- A part offers a choice where names are not ambiguous.
theorem part_choice (s : Snapshot) (w : Workflow) (hone : s.OneDefinition)
    (hscans : ∀ t ∈ w.scans, branchConnectors s w t ≠ []) (t : Nat) (ht : t ∈ w.starts)
    (f : Fragment) (hf : partOf? s w t = some f) : ∃ c, choose f.candidates = .ok c :=
  choose_fragment_exists f (part_tables s w t ht f hf) (part_connectors s w hscans t ht f hf)
    fun c hc d hd hname => hone c d (part_covers s w t ht f hf c hc).1
      (part_covers s w t ht f hf d hd).1 hname

-- Every native join is a part, and can be settled.
theorem natives_settle (s : Snapshot) (w : Workflow) (hone : s.OneDefinition)
    (hscans : ∀ t ∈ w.scans, branchConnectors s w t ≠ []) :
    ∃ settled, settle (natives s w) = .ok settled :=
  settle_ok (natives s w) fun e he => by
    rcases mem_natives s w e he with ⟨hjoin, hf⟩
    exact part_choice s w hone hscans e.1 (Workflow.mem_starts_of_join w e.1 hjoin) e.2 hf

-- Every branch is a part, and can be assigned.
theorem branches_assign (s : Snapshot) (w : Workflow) (hone : s.OneDefinition)
    (hscans : ∀ t ∈ w.scans, branchConnectors s w t ≠ []) (settled : List (Nat × Connector)) :
    ∃ assigned, (w.scans.map (wholeBranch s w)).mapM (assign settled) = .ok assigned :=
  mapM_ok _ _ fun b hb => by
    rcases List.mem_map.mp hb with ⟨t, ht, rfl⟩
    exact assign_ok settled _ (part_choice s w hone hscans t (Workflow.mem_starts_of_scan w t ht)
      _ (partOf?_scan s w t ht))

/-- A read is planned if every scan has a connector for its stretch, no name is
    ambiguous, a coordinator may join and there is room for the stages. -/
theorem planSelect_succeeds (config : PlannerConfig) (query : QueryId) (w : Workflow)
    (s : Snapshot) (hone : s.OneDefinition)
    (hscans : ∀ t ∈ w.scans, branchConnectors s w t ≠ [])
    (hfallback : config.fallback = .coordinator) (hroom : w.joins.length ≤ config.maxStages) :
    ∃ p, planSelect config query w s = .ok p := by
  rcases Workflow.exists_root w with ⟨root, hroot⟩
  cases hpart : partOf? s w root with
  | some f =>
      rcases part_choice s w hone hscans root hroot.mem f hpart with ⟨c, hc⟩
      exact ⟨_, (planSelect_eq_ok config query w s root hroot _).mpr
        ⟨hscans, Planned.whole f c hpart hc⟩⟩
  | none =>
      rcases natives_settle s w hone hscans with ⟨settled, hsettled⟩
      rcases branches_assign s w hone hscans settled with ⟨assigned, hassigned⟩
      rcases mergeStages_ok w assigned settled with ⟨stages, hstages⟩
      have hlength : stages.length = w.joins.length := by
        rw [← (mergeStages_spec _ w assigned settled stages hstages).1, List.length_map]
      rw [← hfallback] at hstages
      exact ⟨_, (planSelect_eq_ok config query w s root hroot _).mpr
        ⟨hscans, Planned.split settled assigned stages hpart hsettled hassigned hstages
          (by omega)⟩⟩

/-- The users of one cluster, joined with the orders of another. -/
def joinedRead : Workflow where
  steps :=
    [.scan ⟨⟨"shop"⟩, "users"⟩ ⟨"east"⟩ [], .scan ⟨⟨"shop"⟩, "orders"⟩ ⟨"west"⟩ [],
      .join ⟨.boolean true, .eq, .boolean true⟩ Capability.joinVariants, .projection [] none]
  links := [⟨0, 2⟩, ⟨1, 2⟩, ⟨2, 3⟩]
  terminal := 3
  sound := (Graph.sound_iff_fault? _).mpr (by decide)
  sinks_eq := by decide

/-- The snapshot of a registry whose connectors can execute anything, for two
    clusters. -/
def eastAndWest (east west : List ConnectorName) : Snapshot where
  clusters := .ofList
    [(⟨"east"⟩, east.map Connector.universal), (⟨"west"⟩, west.map Connector.universal)]
  tables := ∅

-- What the two clusters list.
theorem connectorsOf_eastAndWest (east west : List ConnectorName) (cluster : ClusterName) :
    (eastAndWest east west).connectorsOf cluster
      = if cluster = ⟨"west"⟩ then west.map Connector.universal
        else if cluster = ⟨"east"⟩ then east.map Connector.universal else [] := by
  show ((((∅ : SortedMap ClusterName (List Connector)).insert _ _).insert _ _).get?
    cluster).getD [] = _
  rw [SortedMap.get?_insert, SortedMap.get?_insert]
  split
  · rfl
  · split <;> rfl

/-- The connectors of two clusters that have none in common share the work. -/
def dividedPlan : MultiPlan where
  query := ⟨"q"⟩
  branches :=
    [⟨wholeBranch (eastAndWest [⟨"a"⟩] [⟨"b"⟩]) joinedRead 0, .universal ⟨"a"⟩⟩,
      ⟨wholeBranch (eastAndWest [⟨"a"⟩] [⟨"b"⟩]) joinedRead 1, .universal ⟨"b"⟩⟩]
  stages :=
    [⟨2, [2, 3], [.branch 0, .branch 1], [⟨⟨"shop"⟩, "orders"⟩, ⟨⟨"shop"⟩, "users"⟩],
      .connector (.universal ⟨"a"⟩) .selectInnerJoinPartialResults⟩]
  workflow := joinedRead

example : planSelect .default ⟨"q"⟩ joinedRead (eastAndWest [⟨"a"⟩] [⟨"b"⟩])
    = .ok (.multi dividedPlan) := rfl

end Federation
