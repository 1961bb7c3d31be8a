import Federation.Proofs.Planner.Outcome

/-!
# Workflows on One Connector

A connector could execute all of a workflow if it is listed for the cluster of
every scan and declares an alternative of every step. The planner never asks for
such connectors: it narrows the connectors of each scan along its stretch, keeps
at each join those of one side whose name occurs on the other, and narrows again.
If names are not ambiguous and a table is read on one cluster only, what is left
at the terminal are nevertheless all connectors that could execute the whole, and
no others; a copy found on the other side of a join is then the connector itself.

So one connector is used exactly if one would do, and of several it is the one
with the smallest name. The settings have no part in this.

## Main definitions

* `Full`: A connector that could execute all of a workflow.

## Theorems

* `full_iff`: Such a connector covers every stretch.
* `mem_root_part`: They are what is left at the terminal.
* `whole_of_full`, `full_of_whole`: Where one would do, and where one does.
* `whole_on_least_name`: One connector is used exactly if one would do.
-/

namespace Federation

/-- A connector that could execute all of a workflow. -/
structure Full (s : Snapshot) (w : Workflow) (c : Connector) : Prop where
  attached : ∀ id table cluster columns, w.step? id = some (.scan table cluster columns) →
    c ∈ s.connectorsOf cluster
  declares : ∀ id step, w.step? id = some step → ∃ a ∈ step.alternatives, c.supports a = true

-- A connector declares an alternative of every step exactly if it can run every
-- stretch, since each step is in one.
theorem runs_all_iff (w : Workflow) (c : Connector) :
    (∀ t ∈ w.starts, w.canRunAll (w.stretch t) c = true) ↔
      ∀ id step, w.step? id = some step → ∃ a ∈ step.alternatives, c.supports a = true := by
  constructor
  · intro hall id step hstep
    rcases Workflow.exists_start w id (Graph.step?_eq_some_lt hstep) with ⟨t, ht, hmem⟩
    have hrun := (Workflow.canRunAll_iff w _ c).mp (hall t ht) id hmem
    rcases (Workflow.canRunAt_iff w c id).mp hrun with ⟨step', hstep', hcan⟩
    rw [hstep, Option.some.injEq] at hstep'
    rw [hstep']
    exact (canRun_iff c step').mp hcan
  · intro hall t ht
    rw [Workflow.canRunAll_iff]
    intro id hid
    have hlt := (Workflow.le_of_mem_stretch w t (Workflow.starts_lt w t ht) id hid).2
    rcases Graph.exists_step _ id hlt with ⟨step, hstep⟩
    exact (Workflow.canRunAt_iff w c id).mpr ⟨step, hstep, (canRun_iff c step).mpr
      (hall id step hstep)⟩

-- Where tables are read on one cluster only, a connector is listed for the cluster
-- of each scan if it is so for the home of its table.
theorem attached_iff (s : Snapshot) (w : Workflow) (hhome : w.OneHome) (c : Connector) :
    (∀ t ∈ w.scans, c ∈ s.connectorsOf (w.home t)) ↔
      ∀ id table cluster columns, w.step? id = some (.scan table cluster columns) →
        c ∈ s.connectorsOf cluster := by
  constructor
  · intro hall id table cluster columns h
    have hc := hall id ((Graph.mem_scans _ id).mpr ⟨table, cluster, columns, h⟩)
    rw [Workflow.home_eq w hhome id table cluster columns h] at hc
    exact hc
  · intro hall t ht
    rcases (Graph.mem_scans _ t).mp ht with ⟨table, cluster, columns, h⟩
    rw [Workflow.home_eq w hhome t table cluster columns h]
    exact hall t table cluster columns h

/-- A connector could execute all of a workflow if it is listed at every scan and
    can run every stretch. -/
theorem full_iff (s : Snapshot) (w : Workflow) (hhome : w.OneHome) (c : Connector) :
    Full s w c ↔ (∀ t ∈ w.scans, c ∈ s.connectorsOf (w.home t)) ∧
      ∀ t ∈ w.starts, w.canRunAll (w.stretch t) c = true := by
  rw [attached_iff s w hhome, runs_all_iff]
  exact ⟨fun h => ⟨h.attached, h.declares⟩, fun h => ⟨h.1, h.2⟩⟩

/-- What is left at the terminal are the connectors that could execute all of the
    workflow. -/
theorem mem_root_part (s : Snapshot) (w : Workflow) (hhome : w.OneHome)
    (hone : s.OneDefinition) (root : Nat) (hroot : w.IsRoot root) (c : Connector) :
    (∃ f, partOf? s w root = some f ∧ c ∈ f.connectors) ↔ Full s w c := by
  rw [full_iff s w hhome, mem_part s w hone root hroot.mem]
  -- Everything feeds the part that ends the workflow.
  have hfeeds := Workflow.feeds_root w root hroot
  constructor
  · rintro ⟨hlisted, hrun⟩
    exact ⟨fun t ht => hlisted t ht (hfeeds t (Workflow.mem_starts_of_scan w t ht)),
      fun t ht => hrun t ht (hfeeds t ht)⟩
  · rintro ⟨hlisted, hrun⟩
    exact ⟨fun t ht _ => hlisted t ht, fun t ht _ => hrun t ht⟩

/-- Where connectors could execute all of a workflow it goes to the one with the smallest
    name. -/
theorem whole_of_full (config : PlannerConfig) (query : QueryId) (w : Workflow) (s : Snapshot)
    (hhome : w.OneHome) (hone : s.OneDefinition) (c : Connector) (hc : Full s w c) :
    ∃ least, Full s w least ∧
      (∀ d, Full s w d → d ≠ least → compare least.name d.name = .lt) ∧
        planSelect config query w s
          = .ok (.single ⟨query, least, w.initialSteps, w.terminal, w.ids, w⟩) := by
  rcases Workflow.exists_root w with ⟨root, hroot⟩
  have hleft := mem_root_part s w hhome hone root hroot
  rcases (hleft c).mpr hc with ⟨f, hf, _⟩
  have hmem : ∀ d, Full s w d → d ∈ f.connectors := fun d hd => by
    rcases (hleft d).mpr hd with ⟨g, hg, hdg⟩
    rw [hf, Option.some.injEq] at hg
    rw [hg]
    exact hdg
  -- Such a connector is one for the stretch of each scan.
  have hscans : ∀ t ∈ w.scans, branchConnectors s w t ≠ [] := fun t ht => by
    rcases (full_iff s w hhome c).mp hc with ⟨hlisted, hrun⟩
    exact List.ne_nil_of_mem (List.mem_filter.mpr ⟨hlisted t ht,
      hrun t (Workflow.mem_starts_of_scan w t ht)⟩)
  rcases part_choice s w hone hscans root hroot.mem f hf with ⟨least, hchoice⟩
  have hleast := ((choose_fragment f least).mp hchoice).2.1
  refine ⟨least, (hleft least).mp ⟨f, hf, hleast⟩,
    fun d hd => choose_fragment_least f least hchoice d (hmem d hd), ?_⟩
  exact (planSelect_eq_ok config query w s root hroot _).mpr
    ⟨hscans, Planned.whole f least hf hchoice⟩

/-- The connector of a whole workflow could execute all of it. -/
theorem full_of_whole (config : PlannerConfig) (query : QueryId) (w : Workflow) (s : Snapshot)
    (hhome : w.OneHome) (hone : s.OneDefinition) (p : SinglePlan)
    (hp : planSelect config query w s = .ok (.single p)) : Full s w p.connector := by
  rcases Workflow.exists_root w with ⟨root, hroot⟩
  rcases (planSelect_eq_ok config query w s root hroot _).mp hp with ⟨_, hplanned⟩
  cases hplanned with
  | whole f c hf hchoice =>
      have hc := ((choose_fragment f c).mp hchoice).2.1
      exact (mem_root_part s w hhome hone root hroot c).mp ⟨f, hf, hc⟩

/-- One connector executes all of a workflow exactly if one could. Of several it is
    the one with the smallest name, and it is sent every step in order. -/
theorem whole_on_least_name (config : PlannerConfig) (query : QueryId) (w : Workflow)
    (s : Snapshot) (hhome : w.OneHome) (hone : s.OneDefinition) :
    ((∃ c, Full s w c) → ∃ c, Full s w c ∧
        (∀ d, Full s w d → d ≠ c → compare c.name d.name = .lt) ∧
          planSelect config query w s
            = .ok (.single ⟨query, c, w.initialSteps, w.terminal, w.ids, w⟩)) ∧
      ((¬∃ c, Full s w c) → ∀ p, planSelect config query w s ≠ .ok (.single p)) := by
  constructor
  · rintro ⟨c, hc⟩
    exact whole_of_full config query w s hhome hone c hc
  · intro hnone p hp
    exact hnone ⟨p.connector, full_of_whole config query w s hhome hone p hp⟩

/-- Of two connectors that serve the clusters of both users and orders the one with
    the smaller name gets it all. -/
theorem whole_shared :
    joinedRead.OneHome ∧ (eastAndWest [⟨"b"⟩, ⟨"a"⟩] [⟨"a"⟩, ⟨"b"⟩]).OneDefinition ∧
      ∃ c, Full (eastAndWest [⟨"b"⟩, ⟨"a"⟩] [⟨"a"⟩, ⟨"b"⟩]) joinedRead c ∧
        planSelect .default ⟨"q"⟩ joinedRead (eastAndWest [⟨"b"⟩, ⟨"a"⟩] [⟨"a"⟩, ⟨"b"⟩])
          = .ok (.single ⟨⟨"q"⟩, c, [0, 1], 3, [0, 1, 2, 3], joinedRead⟩) := by
  have hhome : joinedRead.OneHome := by decide
  have hone : (eastAndWest [⟨"b"⟩, ⟨"a"⟩] [⟨"a"⟩, ⟨"b"⟩]).OneDefinition := by decide
  have hfull : Full (eastAndWest [⟨"b"⟩, ⟨"a"⟩] [⟨"a"⟩, ⟨"b"⟩]) joinedRead (.universal ⟨"a"⟩) :=
    (full_iff _ _ hhome _).mpr (by decide)
  rcases (whole_on_least_name .default ⟨"q"⟩ joinedRead _ hhome hone).1 ⟨_, hfull⟩ with
    ⟨c, hc, _, hplan⟩
  exact ⟨hhome, hone, c, hc, hplan⟩

end Federation
