import Federation.Proofs.Planner.Dispatch
import Federation.Proofs.Planner.Home
import Federation.Proofs.Planner.JoinTree

/-!
# One Address for Each Name

A choice refuses a name that two different connectors bear, but it only sees the
connectors that are left of a part, and these have come down one side of each join.
What was found on the other side was compared by name and is forgotten. So a plan can
send the whole of a workflow to one of two connectors of a name although its scans are
on the clusters of both.

On a single cluster nothing is forgotten. Entries of one name declare the same, so they
are narrowed alike, and a part that has one of them has all. What is chosen is then the
only connector of its name on the cluster, and what is taken over by name is that
connector again. On two clusters one name can always be listed with two addresses.

## Main definitions

* `OneAddress`: A plan reaches every connector that it names in one place.
* `CanScan`: A connector that can scan, where scans are.
* `SoleOn`: The only connector of its name on a cluster.
* `Registry.movedOn`: A connector that has another address on one cluster.

## Theorems

* `Divided.stage_holds`, `planned_holds`: What holds of choices holds of all that is sent.
* `address_of_agreement`: Where addresses agree by name, they do so in a plan.
* `part_copies`: On a single cluster a part has all copies of a connector or none.
* `moved_whole`: A connector that is listed everywhere is sent the whole workflow.
* `one_address_iff`: When every name has one address.
* `moved_users`: A connector that is sent the scan of another.
-/

namespace Federation

/-- Whether a plan reaches every connector that it names in one place: what is sent to
    one name is sent to one address, and if that is the whole workflow, no scan is on a
    cluster where a connector of that name that can scan has another address. -/
structure OneAddress (s : Snapshot) (w : Workflow) (p : Plan) : Prop where
  units : ∀ u ∈ p.units, ∀ v ∈ p.units, u.connector = v.connector → u.handle = v.handle
  whole : ∀ single, p = .single single → ∀ cluster ∈ w.clusters,
    ∀ c ∈ s.connectorsOf cluster, c.supports .scan = true →
      c.name = single.connector.name → c.handle = single.connector.handle

section Holds

variable {s : Snapshot} {w : Workflow} {settled : List (Nat × Connector)} {m : MultiPlan}
variable (P : Connector → Prop)
variable (hchoice : ∀ t ∈ w.starts, ∀ f, partOf? s w t = some f → ∀ c,
  choose f.candidates = .ok c → P c)
variable (hname : ∀ t ∈ w.starts, ∀ f, partOf? s w t = some f → ∀ c ∈ f.connectors,
  ∀ d, P d → c.name = d.name → P c)

include hchoice hname

-- What holds of choices holds of all connectors that are settled.
theorem Divided.settled_holds (h : Divided s w settled m) :
    ∀ join c, settled.lookup join = some c → P c := by
  have hpart : ∀ e ∈ natives s w, e.1 ∈ w.starts ∧ partOf? s w e.1 = some e.2 := fun e he => by
    rcases mem_natives s w e he with ⟨hjoin, hf⟩
    exact ⟨Workflow.mem_starts_of_join w _ hjoin, hf⟩
  exact settle_holds P _ settled h.settled_eq
    (fun e he => hchoice e.1 (hpart e he).1 e.2 (hpart e he).2)
    fun e he => hname e.1 (hpart e he).1 e.2 (hpart e he).2

-- So it holds of all connectors that branches are assigned to.
theorem Divided.branch_holds (h : Divided s w settled m) :
    ∀ a ∈ m.branches, P a.connector := by
  intro a ha
  rcases h.branch_mem a ha with ⟨hscan, heq⟩
  have hstart := Workflow.mem_starts_of_scan w _ hscan
  have hf := partOf?_scan s w _ hscan
  rw [← heq] at hf
  have htakes := h.takes a ha
  exact htakes.holds P (h.settled_holds P hchoice hname) (hchoice _ hstart _ hf _)
    (hname _ hstart _ hf _ htakes.mem)

/-- What holds of every choice, and with a connector of all others of its name, holds of
    the connectors that execute stages. -/
theorem Divided.stage_holds (h : Divided s w settled m) (n : Nat) (stage : Stage)
    (hn : m.stages[n]? = some stage) (c : Connector)
    (hc : stage.executor.connector? = some c) : P c := by
  induction n using Nat.strongRecOn generalizing stage c with
  | _ n ih =>
    rcases h.stageOf n stage hn with ⟨hjoin, hspec⟩
    cases hexecutor : stage.executor with
    | coordinator =>
        rw [hexecutor] at hc
        cases hc
    | connector e capability =>
        rw [hexecutor] at hc
        cases hc
        rcases hspec.executor_cases c capability hexecutor with ⟨hd, _⟩ | ⟨_, hmerge⟩
        · exact h.settled_holds P hchoice hname _ c hd
        · -- A connector that merges has executed a branch or an earlier stage.
          rcases (mergeExecutor?_spec w stage.join _ _ c hmerge).2.2.2 with ⟨f, hf, hexecuted⟩
          rcases (h.mem_feeds n stage hn f).mp hf with ⟨t, ht, hbrings⟩
          cases hbrings with
          | branch i a hi =>
              cases hexecuted
              exact h.branch_holds P hchoice hname a (List.mem_of_getElem? hi)
          | stage i other hi =>
              have hlt := joins_place_lt w i n _ _ (h.stageOf i other hi).1 hjoin
                (Workflow.lt_of_mem_feeders w _ _ ht)
              exact ih i hlt other hi c hexecuted

/-- What holds of every choice, and with a connector of all others of its name, holds of
    every connector that anything is sent to. -/
theorem planned_holds (config : PlannerConfig) (query : QueryId) (p : Plan)
    (hp : planSelect config query w s = .ok p) : ∀ d ∈ p.dispatches, P d.1 := by
  intro d hd
  cases p with
  | storage p =>
      rcases Workflow.exists_root w with ⟨root, hroot⟩
      cases ((planSelect_eq_ok config query w s root hroot _).mp hp).2
  | single p =>
      rcases Workflow.exists_root w with ⟨root, hroot⟩
      cases ((planSelect_eq_ok config query w s root hroot _).mp hp).2 with
      | whole f c hf hc =>
          rw [List.mem_singleton.mp hd]
          exact hchoice root hroot.mem f hf c hc
  | multi m =>
      rcases divided_of_multi config query w s m hp with ⟨settled, h⟩
      rcases List.mem_append.mp hd with hd | hd
      · rcases List.mem_map.mp hd with ⟨a, ha, rfl⟩
        exact h.branch_holds P hchoice hname a ha
      · rcases List.mem_filterMap.mp hd with ⟨stage, hstage, hsent⟩
        rcases Option.map_eq_some_iff.mp hsent with ⟨c, hc, rfl⟩
        rcases List.mem_iff_getElem?.mp hstage with ⟨n, hn⟩
        exact h.stage_holds P hchoice hname n stage hn c hc

end Holds

/-- The only connector of its name on a cluster. -/
def SoleOn (s : Snapshot) (cluster : ClusterName) (c : Connector) : Prop :=
  c ∈ s.connectorsOf cluster ∧ ∀ d ∈ s.connectorsOf cluster, d.name = c.name → d = c

-- The home of a table is a cluster that is scanned.
theorem home_mem_clusters (w : Workflow) (t : Nat) (ht : t ∈ w.scans) :
    w.home t ∈ w.clusters := by
  rcases (Graph.mem_scans _ t).mp ht with ⟨table, k, columns, h⟩
  rcases (Workflow.home_spec w t table k columns h).2 with ⟨first, others, hfirst⟩
  exact (mem_clusters w _).mpr ⟨first, table, others, hfirst⟩

theorem home_of_one_cluster (w : Workflow) (cluster : ClusterName) (hone : w.clusters = [cluster])
    (t : Nat) (ht : t ∈ w.scans) : w.home t = cluster := by
  have hmem := home_mem_clusters w t ht
  rw [hone] at hmem
  exact List.mem_singleton.mp hmem

/-- On a single cluster the connectors of a part are listed there, and a part that has one
    entry of a name has all. -/
theorem part_copies (s : Snapshot) (w : Workflow) (hdecl : s.OneDeclaration)
    (cluster : ClusterName) (hone : w.clusters = [cluster]) : ∀ t ∈ w.starts, ∀ f,
      partOf? s w t = some f → ∀ c ∈ f.connectors, c ∈ s.connectorsOf cluster ∧
        ∀ d ∈ s.connectorsOf cluster, d.name = c.name → d ∈ f.connectors := by
  refine Workflow.start_induction w (fun t ht f hf c hc => ?_)
    (fun j hj left right hpair hl hr f hf c hc => ?_)
  · rw [partOf?_scan s w t ht, Option.some.injEq] at hf
    rw [← hf] at hc ⊢
    rcases List.mem_filter.mp hc with ⟨hlisted, hrun⟩
    rw [home_of_one_cluster w cluster hone t ht] at hlisted
    refine ⟨hlisted, fun d hd hname => List.mem_filter.mpr ⟨?_, ?_⟩⟩
    · rw [home_of_one_cluster w cluster hone t ht]
      exact hd
    · rw [Workflow.canRunAll_congr w d c _ (hdecl d c ⟨_, hd⟩ ⟨_, hlisted⟩ hname)]
      exact hrun
  · rcases (partOf?_join s w j left right hj hpair f).mp hf with ⟨a, b, ⟨ha, _⟩, _, rfl⟩
    rcases (mem_joined w j a b c).mp hc with ⟨hca, ⟨o, ho, hoc⟩, hrun⟩
    rcases hl a ha c hca with ⟨hlisted, hcopies⟩
    refine ⟨hlisted, fun d hd hname => ?_⟩
    rw [mem_joined, Workflow.canRunAll_congr w d c _ (hdecl d c ⟨_, hd⟩ ⟨_, hlisted⟩ hname)]
    exact ⟨hcopies d hd hname, ⟨o, ho, hoc.trans hname.symm⟩, hrun⟩

/-- On a single cluster all that is sent is sent to connectors that are the only ones of
    their names there. -/
theorem dispatches_sole (config : PlannerConfig) (query : QueryId) (w : Workflow) (s : Snapshot)
    (hdecl : s.OneDeclaration) (cluster : ClusterName) (hone : w.clusters = [cluster]) (p : Plan)
    (hp : planSelect config query w s = .ok p) :
    ∀ d ∈ p.dispatches, SoleOn s cluster d.1 := by
  have hcopies := part_copies s w hdecl cluster hone
  refine planned_holds (SoleOn s cluster) (fun t ht f hf c hc => ?_)
    (fun t ht f hf c hc d hd hname => ?_) config query p hp
  · -- A choice is made among all entries of its name.
    rcases (choose_fragment f c).mp hc with ⟨_, hmem, _, hunique⟩
    rcases hcopies t ht f hf c hmem with ⟨hlisted, hall⟩
    exact ⟨hlisted, fun d hd hname => hunique d (hall d hd hname) hname⟩
  · rw [hd.2 c (hcopies t ht f hf c hc).1 hname]
    exact hd

-- A plan whose connectors agree by name, among each other and with those that are listed
-- where scans are, has one address for each name.
theorem oneAddress_of_agreeing (s : Snapshot) (w : Workflow) (p : Plan) (P : Connector → Prop)
    (hsent : ∀ d ∈ p.dispatches, P d.1)
    (hagree : ∀ c d, P c → P d → c.name = d.name → c.handle = d.handle)
    (hlisted : ∀ k ∈ w.clusters, ∀ c ∈ s.connectorsOf k, c.supports .scan = true →
      ∀ d, P d → c.name = d.name → c.handle = d.handle) : OneAddress s w p := by
  constructor
  case units =>
    intro u hu v hv hname
    rw [units_eq] at hu hv
    rcases List.mem_map.mp hu with ⟨d, hd, rfl⟩
    rcases List.mem_map.mp hv with ⟨e, he, rfl⟩
    exact hagree d.1 e.1 (hsent d hd) (hsent e he) hname
  case whole =>
    rintro single rfl k hk c hc hscan hname
    exact hlisted k hk c hc hscan _ (hsent _ List.mem_cons_self) hname

/-- On a single cluster every name has one address. -/
theorem address_of_one_cluster (config : PlannerConfig) (query : QueryId) (w : Workflow)
    (s : Snapshot) (hdecl : s.OneDeclaration) (cluster : ClusterName)
    (hone : w.clusters = [cluster]) (p : Plan) (hp : planSelect config query w s = .ok p) :
    OneAddress s w p := by
  refine oneAddress_of_agreeing s w p (SoleOn s cluster)
    (dispatches_sole config query w s hdecl cluster hone p hp) (fun c d hc hd hname => ?_)
    (fun k hk c hc _ d hd hname => ?_)
  · exact congrArg Connector.handle (hd.2 c hc.1 hname)
  · rw [hone, List.mem_singleton] at hk
    rw [hk] at hc
    exact congrArg Connector.handle (hd.2 c hc hname)

/-- A connector that can scan and is listed for a cluster that is scanned. -/
def CanScan (s : Snapshot) (w : Workflow) (c : Connector) : Prop :=
  ∃ k ∈ w.clusters, c ∈ s.connectorsOf k ∧ c.supports .scan = true

-- Such are the connectors of a part.
theorem part_canScan (s : Snapshot) (w : Workflow) : ∀ t ∈ w.starts, ∀ f,
    partOf? s w t = some f → ∀ c ∈ f.connectors, CanScan s w c := by
  refine Workflow.start_induction w (fun t ht f hf c hc => ?_)
    (fun j hj left right hpair hl _ f hf c hc => ?_)
  · rw [partOf?_scan s w t ht, Option.some.injEq] at hf
    rw [← hf] at hc
    have hcovers := covers_scan s w t c hc
    refine ⟨w.home t, home_mem_clusters w t ht, hcovers.home ht, ?_⟩
    -- Of its stretch it can run the scan.
    rcases (Workflow.canRunAt_iff w c t).mp ((Workflow.canRunAll_iff w _ c).mp hcovers.runs t
      (Workflow.mem_stretch_self w t)) with ⟨step, hstep, hcan⟩
    rcases (Graph.mem_scans _ t).mp ht with ⟨table, k, columns, h⟩
    rw [h] at hstep
    cases hstep
    rcases (canRun_iff c _).mp hcan with ⟨a, ha, hsupports⟩
    rw [List.mem_singleton.mp ha] at hsupports
    exact hsupports
  · rcases (partOf?_join s w j left right hj hpair f).mp hf with ⟨a, b, ⟨ha, _⟩, _, rfl⟩
    exact hl a ha c ((mem_joined w j a b c).mp hc).1

/-- Every name has one address if the connectors of a name that can scan are listed with
    one address, on whatever scanned clusters they are. -/
theorem address_of_agreement (config : PlannerConfig) (query : QueryId) (w : Workflow)
    (s : Snapshot)
    (hagree : ∀ c d, CanScan s w c → CanScan s w d → c.name = d.name → c.handle = d.handle)
    (p : Plan) (hp : planSelect config query w s = .ok p) : OneAddress s w p := by
  have hparts := part_canScan s w
  have hsent := planned_holds (CanScan s w)
    (fun t ht f hf c hc => hparts t ht f hf c ((choose_fragment f c).mp hc).2.1)
    (fun t ht f hf c hc _ _ _ => hparts t ht f hf c hc) config query p hp
  exact oneAddress_of_agreeing s w p (CanScan s w) hsent hagree
    fun k hk c hc hscan d => hagree c d ⟨k, hk, hc, hscan⟩

/-- A connector that can execute anything, at an address. -/
def Connector.at (handle : Handle) : Connector := { Connector.universal ⟨"a"⟩ with handle }

/-- A registry that lists one connector everywhere, on one of the clusters at another
    address. -/
def Registry.movedOn (cluster : ClusterName) : Registry where
  clusterOf _ := none
  connectorsOf k := [.at (if k = cluster then ⟨"here"⟩ else ⟨"elsewhere"⟩)]
  capabilitiesOf _ := some (.ofList Capability.all)

-- A part has what is listed for the first of its scans.
theorem part_of_moved (s : Snapshot) (w : Workflow)
    (hlist : ∀ k ∈ w.clusters, ∃ handle, s.connectorsOf k = [.at handle]) :
    ∀ t ∈ w.starts, ∃ f handle, partOf? s w t = some f ∧ f.connectors = [.at handle] := by
  have hrun : ∀ t ∈ w.starts, ∀ handle, w.canRunAll (w.stretch t) (.at handle) = true :=
    fun t ht handle => canRunAll_universal w t ht ⟨"a"⟩
  refine Workflow.start_induction w (fun t ht => ?_) (fun j hj left right hpair hl hr => ?_)
  · rcases hlist _ (home_mem_clusters w t ht) with ⟨handle, hk⟩
    refine ⟨_, handle, partOf?_scan s w t ht, ?_⟩
    show (s.connectorsOf (w.home t)).filter _ = _
    rw [hk, List.filter_cons_of_pos (hrun t (Workflow.mem_starts_of_scan w t ht) handle)]
    rfl
  · rcases hl with ⟨a, handle, ha, hca⟩
    rcases hr with ⟨b, _, hb, hcb⟩
    have hrest : (joined w j a b).connectors = [.at handle] := by
      unfold joined
      simp only
      rw [hca, hcb]
      exact List.filter_cons_of_pos (hrun j (Workflow.mem_starts_of_join w j hj) handle)
    refine ⟨joined w j a b, handle, ?_, hrest⟩
    rw [partOf?_join s w j left right hj hpair]
    exact ⟨a, b, ⟨ha, hb⟩, by rw [hrest]; exact List.cons_ne_nil _ _, rfl⟩

/-- A connector that is listed everywhere, wherever it may be reached, is sent the whole
    workflow. -/
theorem moved_whole (config : PlannerConfig) (query : QueryId) (w : Workflow) (s : Snapshot)
    (hlist : ∀ k ∈ w.clusters, ∃ handle, s.connectorsOf k = [.at handle]) :
    ∃ handle, planSelect config query w s
      = .ok (.single ⟨query, .at handle, w.initialSteps, w.terminal, w.ids, w⟩) := by
  have hparts := part_of_moved s w hlist
  rcases Workflow.exists_root w with ⟨root, hroot⟩
  rcases hparts root hroot.mem with ⟨f, handle, hf, hc⟩
  refine ⟨handle, (planSelect_eq_ok config query w s root hroot _).mpr ⟨fun t ht => ?_, ?_⟩⟩
  · rcases hparts t (Workflow.mem_starts_of_scan w t ht) with ⟨g, _, hg, hcg⟩
    rw [partOf?_scan s w t ht, Option.some.injEq] at hg
    show (Fragment.ofBranch (wholeBranch s w t)).connectors ≠ []
    rw [hg, hcg]
    exact List.cons_ne_nil _ _
  · refine Planned.whole f _ hf ((choose_fragment f _).mpr
      ⟨part_tables s w root hroot.mem f hf, ?_, fun d hd => ?_, fun d hd _ => ?_⟩)
    · rw [hc]
      exact List.mem_singleton_self _
    · rw [hc, List.mem_singleton] at hd
      rw [hd]
      exact fun hgt => nomatch Std.ReflCmp.compare_self.symm.trans hgt
    · rw [hc, List.mem_singleton] at hd
      exact hd

/-- Whoever is sent the whole workflow, on one of two clusters the name is reached
    elsewhere. -/
theorem moved_apart (w : Workflow) (k₁ k₂ : ClusterName) (h₁ : k₁ ∈ w.clusters)
    (h₂ : k₂ ∈ w.clusters) (hne : k₂ ≠ k₁) :
    ∃ s p, (Snapshot.capture (.movedOn k₁) w.clusters []).value = .ok s ∧
      planSelect .default ⟨"q"⟩ w s = .ok p ∧ ¬OneAddress s w p := by
  rcases capture_clusters (.movedOn k₁) w.clusters with ⟨s, hs⟩
  rcases capture_connectorsOf _ w.clusters [] s hs with ⟨wanted, hwanted, hlist⟩
  have hall : ∀ k ∈ w.clusters, s.connectorsOf k
      = [.at (if k = k₁ then ⟨"here"⟩ else ⟨"elsewhere"⟩)] := fun k hk => by
    rw [hlist k, if_pos (hwanted k hk)]
    rfl
  rcases moved_whole .default ⟨"q"⟩ w s fun k hk => ⟨_, hall k hk⟩ with ⟨handle, hp⟩
  refine ⟨s, _, hs, hp, fun haddress => ?_⟩
  have hreached : ∀ k ∈ w.clusters, (if k = k₁ then ⟨"here"⟩ else ⟨"elsewhere"⟩) = handle :=
    fun k hk => haddress.whole _ rfl k hk (.at (if k = k₁ then ⟨"here"⟩ else ⟨"elsewhere"⟩))
      (by rw [hall k hk]; exact List.mem_singleton_self _) (supports_universal ⟨"a"⟩ .scan) rfl
  have hhere := hreached k₁ h₁
  rw [← hreached k₂ h₂, if_pos rfl, if_neg hne] at hhere
  exact absurd hhere (by decide)

-- Some cluster is scanned.
theorem clusters_ne_nil (w : Workflow) : w.clusters ≠ [] := by
  have hlen := Workflow.scans_length w
  have hne : w.scans ≠ [] := List.ne_nil_of_length_pos (by omega)
  rcases List.exists_mem_of_ne_nil _ hne with ⟨t, ht⟩
  exact List.ne_nil_of_mem (home_mem_clusters w t ht)

/-- Every name has one address, whatever the registry and the settings, exactly if a
    workflow scans a single cluster. -/
theorem one_address_iff (w : Workflow) :
    (∀ (r : Registry) (clusters : List ClusterName) (tables : List TableName) (s : Snapshot)
        (config : PlannerConfig) (query : QueryId) (p : Plan),
        (Snapshot.capture r clusters tables).value = .ok s →
          planSelect config query w s = .ok p → OneAddress s w p) ↔
      ∃ cluster, w.clusters = [cluster] := by
  constructor
  · intro hall
    have hasc : Ascending w.clusters := ascending_pairwise _
    cases hclusters : w.clusters with
    | nil => exact absurd hclusters (clusters_ne_nil w)
    | cons k₁ others =>
        cases others with
        | nil => exact ⟨k₁, rfl⟩
        | cons k₂ rest =>
            have hnodup := hasc.nodup
            rw [hclusters] at hnodup
            have hne : k₂ ≠ k₁ := fun heq =>
              (List.nodup_cons.mp hnodup).1 (heq ▸ List.mem_cons_self)
            rcases moved_apart w k₁ k₂ (by rw [hclusters]; exact List.mem_cons_self)
              (by rw [hclusters]; exact List.mem_cons_of_mem _ List.mem_cons_self) hne with
              ⟨s, p, hs, hp, hnot⟩
            exact absurd (hall _ _ _ s _ _ p hs hp) hnot
  · rintro ⟨cluster, hone⟩ r clusters tables s config query p hs hp
    exact address_of_one_cluster config query w s (capture_oneDeclaration r clusters tables s hs)
      cluster hone p hp

/-- The connector that is sent users and orders is not the one of its name that the
    cluster of the orders lists. -/
theorem moved_users :
    ∃ s p, (Snapshot.capture (.movedOn ⟨"east"⟩) joinedRead.clusters []).value = .ok s ∧
      planSelect .default ⟨"q"⟩ joinedRead s = .ok p ∧
        p.units = [⟨⟨"a"⟩, ⟨"here"⟩, [0, 1, 2, 3]⟩] ∧
          s.connectorsOf ⟨"west"⟩ = [.at ⟨"elsewhere"⟩] ∧ ¬OneAddress s joinedRead p := by
  refine ⟨_, .single ⟨⟨"q"⟩, .at ⟨"here"⟩, [0, 1], 3, [0, 1, 2, 3], joinedRead⟩, rfl, rfl, rfl, rfl,
    fun haddress => ?_⟩
  have hreached := haddress.whole _ rfl ⟨"west"⟩ (by decide) (.at ⟨"elsewhere"⟩)
    List.mem_cons_self (by decide) rfl
  exact absurd hreached (by decide)

end Federation
