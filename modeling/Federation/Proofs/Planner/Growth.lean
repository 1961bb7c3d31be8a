import Federation.Proofs.Planner.Outcome

/-!
# Growing Registries

A read that can be planned can still be planned once connectors have joined, or have
learned to do more. This is not plain from how it is planned: with more connectors the
planner gets further along some stretches, settles on others at the joins, and may put
on one connector what it divided before. So the two plans have little in common.

What carries over is whether there is anybody at all. Whoever can run a stretch can run
it with more capabilities, so a stretch that had a connector still has one of that name;
and by recursion over the tree of joins so does every part, as a part is made of the
connectors whose names are on both of its sides. Hence the scans keep connectors for
their stretches, and a part that ends at the terminal keeps connectors for the whole.

The names have to be kept apart in the grown registry only, where the choices are made.

## Main definitions

* `Connector.SurpassedBy`: A connector of the same name that can do at least as much.
* `Snapshot.GrowsTo`: Each connector of a cluster is surpassed on that cluster.

## Theorems

* `SurpassedBy.canRunAll`: Whoever can do more can run what the other runs.
* `branchConnectors_grow`: What becomes of the connectors of a stretch.
* `part_grows`: What becomes of the connectors of a part.
* `planned_grows`: What can be planned can still be planned, on one connector if it was.
-/

namespace Federation

/-- A connector of the same name that declares at least what a connector declares. -/
structure Connector.SurpassedBy (c d : Connector) : Prop where
  name_eq : d.name = c.name
  declares : ∀ a, c.supports a = true → d.supports a = true

/-- Whether each connector of a cluster is surpassed by one of the same cluster. -/
def Snapshot.GrowsTo (s t : Snapshot) : Prop :=
  ∀ cluster, ∀ c ∈ s.connectorsOf cluster, ∃ d ∈ t.connectorsOf cluster, c.SurpassedBy d

/-- Whoever can do more can run the steps that the other can run. -/
theorem Connector.SurpassedBy.canRunAll {c d : Connector} (h : c.SurpassedBy d) (w : Workflow)
    (ids : List Nat) (hc : w.canRunAll ids c = true) : w.canRunAll ids d = true := by
  rw [Workflow.canRunAll_iff] at hc ⊢
  intro id hid
  rcases (Workflow.canRunAt_iff w c id).mp (hc id hid) with ⟨step, hstep, hrun⟩
  rcases (canRun_iff c step).mp hrun with ⟨a, ha, hsupports⟩
  exact (Workflow.canRunAt_iff w d id).mpr
    ⟨step, hstep, (canRun_iff d step).mpr ⟨a, ha, h.declares a hsupports⟩⟩

/-- Each connector of the stretch of a scan is surpassed by one of the same stretch. -/
theorem branchConnectors_grow (s t : Snapshot) (w : Workflow) (hgrows : s.GrowsTo t) (id : Nat)
    (c : Connector) (hc : c ∈ branchConnectors s w id) :
    ∃ d ∈ branchConnectors t w id, c.SurpassedBy d := by
  rcases List.mem_filter.mp hc with ⟨hlisted, hrun⟩
  rcases hgrows (w.home id) c hlisted with ⟨d, hd, hsurpassed⟩
  exact ⟨d, List.mem_filter.mpr ⟨hd, hsurpassed.canRunAll w _ hrun⟩, hsurpassed⟩

/-- A part that has connectors keeps them, each surpassed by one of the part. -/
theorem part_grows (s t : Snapshot) (w : Workflow) (hgrows : s.GrowsTo t) :
    ∀ u ∈ w.starts, ∀ f, partOf? s w u = some f →
      ∃ g, partOf? t w u = some g ∧ ∀ c ∈ f.connectors, ∃ d ∈ g.connectors, c.SurpassedBy d := by
  refine Workflow.start_induction w (fun u hu f hf => ?_)
    (fun j hj left right hpair hl hr f hf => ?_)
  · rw [partOf?_scan s w u hu, Option.some.injEq] at hf
    refine ⟨_, partOf?_scan t w u hu, fun c hc => ?_⟩
    rw [← hf] at hc
    exact branchConnectors_grow s t w hgrows u c hc
  · rcases (partOf?_join s w j left right hj hpair f).mp hf with ⟨a, b, ⟨ha, hb⟩, hne, rfl⟩
    rcases hl a ha with ⟨a', ha', hleft⟩
    rcases hr b hb with ⟨b', hb', hright⟩
    have hkept : ∀ c ∈ (joined w j a b).connectors,
        ∃ d ∈ (joined w j a' b').connectors, c.SurpassedBy d := by
      intro c hc
      rcases (mem_joined w j a b c).mp hc with ⟨hca, ⟨o, ho, hname⟩, hrun⟩
      -- The name is on both sides before, so it is on both sides after.
      rcases hleft c hca with ⟨d, hd, hsurpassed⟩
      rcases hright o ho with ⟨e, he, hother⟩
      have hshared : e.name = d.name := by
        rw [hother.name_eq, hname, hsurpassed.name_eq]
      exact ⟨d, (mem_joined w j a' b' d).mpr
        ⟨hd, ⟨e, he, hshared⟩, hsurpassed.canRunAll w _ hrun⟩, hsurpassed⟩
    refine ⟨joined w j a' b', ?_, hkept⟩
    rw [partOf?_join t w j left right hj hpair]
    rcases List.exists_mem_of_ne_nil _ hne with ⟨c, hc⟩
    rcases hkept c hc with ⟨d, hd, _⟩
    exact ⟨a', b', ⟨ha', hb'⟩, List.ne_nil_of_mem hd, rfl⟩

-- A scan that has connectors for its stretch keeps some.
theorem scans_grow (s t : Snapshot) (w : Workflow) (hgrows : s.GrowsTo t)
    (hscans : ∀ id ∈ w.scans, branchConnectors s w id ≠ []) :
    ∀ id ∈ w.scans, branchConnectors t w id ≠ [] := by
  intro id hid
  rcases List.exists_mem_of_ne_nil _ (hscans id hid) with ⟨c, hc⟩
  rcases branchConnectors_grow s t w hgrows id c hc with ⟨d, hd, _⟩
  exact List.ne_nil_of_mem hd

/-- What goes to one connector still does, whatever the settings. -/
theorem whole_grows (config : PlannerConfig) (query : QueryId) (w : Workflow) (s t : Snapshot)
    (hgrows : s.GrowsTo t) (hone : t.OneDefinition) (p : SinglePlan)
    (hp : planSelect config query w s = .ok (.single p)) :
    ∃ q, planSelect config query w t = .ok (.single q) := by
  rcases Workflow.exists_root w with ⟨root, hroot⟩
  rcases (planSelect_eq_ok config query w s root hroot _).mp hp with ⟨hscans, hplanned⟩
  have hkept := scans_grow s t w hgrows hscans
  cases hplanned with
  | whole f c hpart _ =>
      rcases part_grows s t w hgrows root hroot.mem f hpart with ⟨g, hg, _⟩
      rcases part_choice t w hone hkept root hroot.mem g hg with ⟨d, hd⟩
      exact ⟨_, (planSelect_eq_ok config query w t root hroot _).mpr
        ⟨hkept, Planned.whole g d hg hd⟩⟩

/-- What can be planned with a coordinator to fall back on can still be planned when
    connectors have joined or learned to do more, and on one connector if it could
    before. -/
theorem planned_grows (limit : Nat) (query : QueryId) (w : Workflow) (s t : Snapshot)
    (hgrows : s.GrowsTo t) (hone : t.OneDefinition) :
    ((∃ p, planSelect ⟨.coordinator, limit⟩ query w s = .ok p) →
      ∃ q, planSelect ⟨.coordinator, limit⟩ query w t = .ok q) ∧
    ((∃ p, planSelect ⟨.coordinator, limit⟩ query w s = .ok (.single p)) →
      ∃ q, planSelect ⟨.coordinator, limit⟩ query w t = .ok (.single q)) := by
  refine ⟨fun ⟨p, hp⟩ => ?_, fun ⟨p, hp⟩ => whole_grows _ query w s t hgrows hone p hp⟩
  rcases Workflow.exists_root w with ⟨root, hroot⟩
  rcases (planSelect_eq_ok _ query w s root hroot p).mp hp with ⟨hscans, hplanned⟩
  cases hplanned with
  | whole f c hpart hchoice =>
      rcases whole_grows _ query w s t hgrows hone _ hp with ⟨q, hq⟩
      exact ⟨_, hq⟩
  | split settled assigned stages _ _ _ hstages hlimit =>
      -- There is room for as many stages as before, one for each join.
      rw [← List.length_map (f := Stage.join),
        (mergeStages_spec _ w assigned settled stages hstages).1] at hlimit
      exact planSelect_succeeds _ query w t hone (scans_grow s t w hgrows hscans) rfl hlimit

-- Two clusters grow with what they list.
theorem eastAndWest_grows (east west east' west' : List ConnectorName) (heast : east ⊆ east')
    (hwest : west ⊆ west') : (eastAndWest east west).GrowsTo (eastAndWest east' west') := by
  have hsame : ∀ names names' : List ConnectorName, names ⊆ names' →
      ∀ c ∈ names.map Connector.universal,
        ∃ d ∈ names'.map Connector.universal, c.SurpassedBy d :=
    fun _ _ hnames c hc => ⟨c, List.map_subset _ hnames hc, rfl, fun _ h => h⟩
  intro cluster
  rw [connectorsOf_eastAndWest, connectorsOf_eastAndWest]
  by_cases hcluster : cluster = ⟨"west"⟩
  · rw [if_pos hcluster, if_pos hcluster]
    exact hsame west west' hwest
  · rw [if_neg hcluster, if_neg hcluster]
    by_cases hcluster : cluster = ⟨"east"⟩
    · rw [if_pos hcluster, if_pos hcluster]
      exact hsame east east' heast
    · rw [if_neg hcluster]
      exact fun c hc => absurd hc List.not_mem_nil

/-- Users and orders that one connector reads stay on one connector when others join,
    and what two connectors divided is still planned when one joins that can do it all. -/
theorem grown_joined :
    ((eastAndWest [⟨"b"⟩] [⟨"b"⟩]).GrowsTo (eastAndWest [⟨"b"⟩, ⟨"a"⟩] [⟨"a"⟩, ⟨"b"⟩]) ∧
      (eastAndWest [⟨"b"⟩, ⟨"a"⟩] [⟨"a"⟩, ⟨"b"⟩]).OneDefinition ∧
        (∃ p, planSelect ⟨.coordinator, 0⟩ ⟨"q"⟩ joinedRead (eastAndWest [⟨"b"⟩] [⟨"b"⟩])
          = .ok (.single p)) ∧
        ∃ q, planSelect ⟨.coordinator, 0⟩ ⟨"q"⟩ joinedRead
          (eastAndWest [⟨"b"⟩, ⟨"a"⟩] [⟨"a"⟩, ⟨"b"⟩]) = .ok (.single q)) ∧
      (eastAndWest [⟨"a"⟩] [⟨"b"⟩]).GrowsTo (eastAndWest [⟨"a"⟩, ⟨"c"⟩] [⟨"c"⟩, ⟨"b"⟩]) ∧
        (eastAndWest [⟨"a"⟩, ⟨"c"⟩] [⟨"c"⟩, ⟨"b"⟩]).OneDefinition ∧
          planSelect ⟨.coordinator, 16⟩ ⟨"q"⟩ joinedRead (eastAndWest [⟨"a"⟩] [⟨"b"⟩])
            = .ok (.multi dividedPlan) ∧
          ∃ q, planSelect ⟨.coordinator, 16⟩ ⟨"q"⟩ joinedRead
            (eastAndWest [⟨"a"⟩, ⟨"c"⟩] [⟨"c"⟩, ⟨"b"⟩]) = .ok q := by
  have hjoin := eastAndWest_grows [⟨"b"⟩] [⟨"b"⟩] [⟨"b"⟩, ⟨"a"⟩] [⟨"a"⟩, ⟨"b"⟩]
    (by decide) (by decide)
  have hmore := eastAndWest_grows [⟨"a"⟩] [⟨"b"⟩] [⟨"a"⟩, ⟨"c"⟩] [⟨"c"⟩, ⟨"b"⟩]
    (by decide) (by decide)
  have hone : (eastAndWest [⟨"b"⟩, ⟨"a"⟩] [⟨"a"⟩, ⟨"b"⟩]).OneDefinition := by decide
  have hsole : (eastAndWest [⟨"a"⟩, ⟨"c"⟩] [⟨"c"⟩, ⟨"b"⟩]).OneDefinition := by decide
  have hwhole : ∃ p, planSelect ⟨.coordinator, 0⟩ ⟨"q"⟩ joinedRead
      (eastAndWest [⟨"b"⟩] [⟨"b"⟩]) = .ok (.single p) := ⟨_, rfl⟩
  exact ⟨⟨hjoin, hone, hwhole, (planned_grows 0 ⟨"q"⟩ joinedRead _ _ hjoin hone).2 hwhole⟩,
    hmore, hsole, rfl, (planned_grows 16 ⟨"q"⟩ joinedRead _ _ hmore hsole).1 ⟨_, rfl⟩⟩

end Federation
