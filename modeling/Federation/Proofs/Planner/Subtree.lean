import Federation.Proofs.Planner.Feasible
import Federation.Proofs.Planner.Local

/-!
# Native Subtrees

A join with everything that feeds it, and with what follows it up to the next join, can
be executed by one connector if that connector is a candidate for the table of every
scan below and can run every step. The planner finds these connectors from the scans
downwards, join by join, from what is left of their lists, and hands the one it settles
upwards again by name. Said of the workflow as a whole, what it comes to is simple. Where
names are not ambiguous, the topmost joins that one connector could own are given to the
owner with the smallest name, and so is everything below them.

Nothing below is chosen for itself. A connector that could own a join could own each join
below it, so below the topmost ones all joins are native and all names are found again;
and where a name is found again it stands for the connector itself.

## Main definitions

* `CanOwn`: A connector that could execute a join with all that feeds it.

## Theorems

* `canOwn_iff`: Such connectors are those of the part of the join.
* `Divided.under_of_feeds`: What feeds a join is read by its stage.
* `Divided.owned_by`: What feeds a native join is executed by its connector.
* `Divided.topmost_choice`: A topmost native join has chosen for itself.
* `owned_by_least_name`: Subtrees go to the owner with the smallest name.
* `locals_owned`: Two connectors could join what they share.
-/

namespace Federation

/-- A connector that could execute a join together with everything that feeds it: it is a
    candidate for the table of every scan that leads to the join, and can run every step
    that does and every step from the join up to the next one. -/
structure CanOwn (s : Snapshot) (w : Workflow) (join : Nat) (c : Connector) : Prop where
  candidate : ∀ t table cluster columns, w.step? t = some (.scan table cluster columns) →
    w.Leads t join → ∃ found, (candidates s w).get? table = some found ∧ c ∈ found
  upstream : ∀ v, w.Leads v join → w.canRunAt c v = true
  onwards : ∀ v, w.OnBranch join v → w.canRunAt c v = true

-- The candidates of a scan are listed for the home of its table, and can scan.
theorem candidate_iff (s : Snapshot) (w : Workflow) (t : Nat) (table : TableName)
    (cluster : ClusterName) (columns : List ColumnName)
    (h : w.step? t = some (.scan table cluster columns)) (c : Connector) :
    (∃ found, (candidates s w).get? table = some found ∧ c ∈ found) ↔
      c ∈ s.connectorsOf (w.home t) ∧ w.canRunAt c t = true := by
  have hscan : w.canRunAt c t = c.supports .scan := by
    rw [Bool.eq_iff_iff, Workflow.canRunAt_iff, h]
    simp [canRun_iff, Step.alternatives]
  rw [get?_candidates, (Workflow.home_spec w t table cluster columns h).1, hscan]
  simp only [Option.map_some, Option.some.injEq, exists_eq_left', List.mem_filter]

/-- The connectors that could own a join are those of its part. -/
theorem canOwn_iff (s : Snapshot) (w : Workflow) (hone : s.OneDefinition) (join : Nat)
    (hjoin : join ∈ w.joins) (c : Connector) :
    CanOwn s w join c ↔ ∃ f, partOf? s w join = some f ∧ c ∈ f.connectors := by
  have hstart := Workflow.mem_starts_of_join w join hjoin
  have hlt := Workflow.starts_lt w join hstart
  -- The stretches that feed the join hold the steps that lead to it and those it drags along.
  have hruns : (∀ u ∈ w.starts, w.Feeds u join → w.canRunAll (w.stretch u) c = true) ↔
      ∀ v, w.Leads v join ∨ v ∈ w.stretch join → w.canRunAt c v = true := by
    simp only [← Workflow.mem_feeding_stretch w join _ hstart, Workflow.canRunAll_iff]
    exact ⟨fun h v ⟨u, hu, hf, hv⟩ => h u hu hf v hv, fun h u hu hf v hv => h v ⟨u, hu, hf, hv⟩⟩
  rw [mem_part s w hone join hstart, hruns]
  constructor
  · intro h
    refine ⟨fun u hu hfeeds => ?_, fun v hv => hv.elim (h.upstream v) fun hv =>
      h.onwards v ((Workflow.onBranch_iff w join hlt v).mpr hv)⟩
    rcases (Graph.mem_scans _ u).mp hu with ⟨table, cluster, columns, hstep⟩
    have hlead := (Workflow.leads_iff_feeds w u join (Workflow.mem_starts_of_scan w u hu)
      hstart).mpr hfeeds
    exact ((candidate_iff s w u table cluster columns hstep c).mp
      (h.candidate u table cluster columns hstep hlead)).1
  · rintro ⟨hlisted, hrun⟩
    refine ⟨fun t table cluster columns hstep hlead => ?_, fun v hv => hrun v (Or.inl hv),
      fun v hv => hrun v (Or.inr ((Workflow.onBranch_iff w join hlt v).mp hv))⟩
    have hscan := (Graph.mem_scans _ t).mpr ⟨table, cluster, columns, hstep⟩
    have hfeeds := (Workflow.leads_iff_feeds w t join (Workflow.mem_starts_of_scan w t hscan)
      hstart).mp hlead
    exact (candidate_iff s w t table cluster columns hstep c).mpr
      ⟨hlisted t hscan hfeeds, hrun t (Or.inl hlead)⟩

-- A join that no connector could own has no part.
theorem partOf?_eq_none_iff (s : Snapshot) (w : Workflow) (hone : s.OneDefinition) (join : Nat)
    (hjoin : join ∈ w.joins) : partOf? s w join = none ↔ ¬∃ c, CanOwn s w join c := by
  constructor
  · rintro hnone ⟨c, hc⟩
    rcases (canOwn_iff s w hone join hjoin c).mp hc with ⟨f, hf, _⟩
    rw [hnone] at hf
    cases hf
  · intro hnot
    cases hpart : partOf? s w join with
    | none => rfl
    | some f =>
        rcases Workflow.feeders_pair w join hjoin with ⟨a, b, hpair⟩
        rcases (partOf?_join s w join a b hjoin hpair f).mp hpart with ⟨left, right, _, hne, rfl⟩
        rcases List.exists_mem_of_ne_nil _ hne with ⟨c, hc⟩
        exact absurd ⟨c, (canOwn_iff s w hone join hjoin c).mpr ⟨_, hpart, hc⟩⟩ hnot

section Owned

variable {s : Snapshot} {w : Workflow} {settled : List (Nat × Connector)} {m : MultiPlan}

/-- What feeds a join is read by the stage of the join, itself or through other stages. -/
theorem Divided.under_of_feeds (h : Divided s w settled m) (n : Nat) (stage : Stage)
    (hn : m.stages[n]? = some stage) (t : Nat) (ht : t ∈ w.starts)
    (hfeeds : w.Feeds t stage.join) (hne : t ≠ stage.join) (input : StageInput)
    (hinput : w.startAt? input = some t) : m.Under n input := by
  induction hfeeds using Relation.ReflTransGen.head_induction_on generalizing input with
  | refl => exact absurd rfl hne
  | @head a d hd _ ih =>
      have hfeeder := (Workflow.mem_feeders w d a).mpr ⟨ht, hd⟩
      by_cases hlast : d = stage.join
      · rw [hlast] at hfeeder
        exact .input input ⟨stage, hn, (h.mem_inputs n stage hn input).mpr ⟨a, hfeeder, hinput⟩⟩
      · -- The join that the stretch leads to has a stage, which is read further down.
        have hjoin := (Workflow.downstream_spec w a d (Workflow.starts_lt w a ht) hd).1
        rcases List.mem_iff_getElem?.mp hjoin with ⟨i, hi⟩
        have hunder := ih (Workflow.mem_starts_of_join w d hjoin) hlast (.stage i) hi
        rcases h.exists_brings (.stage i) d hi with ⟨_, hbrings, heq⟩
        cases hbrings with
        | branch _ _ _ => cases heq
        | stage _ other hother =>
            cases heq
            exact .further i input hunder
              ⟨other, hother, (h.mem_inputs i other hother input).mpr ⟨a, hfeeder, hinput⟩⟩

-- A settled connector and the connector of a branch are listed.
theorem Divided.lists_settled (h : Divided s w settled m) (join : Nat) (hjoin : join ∈ w.joins)
    (c : Connector) (hc : settled.lookup join = some c) : s.Lists c := by
  rcases h.part_of_settled join hjoin c hc with ⟨f, hf, hcf⟩
  exact (part_covers s w join (Workflow.mem_starts_of_join w join hjoin) f hf c hcf).1

theorem Divided.lists_branch (h : Divided s w settled m) (a : AssignedBranch)
    (ha : a ∈ m.branches) : s.Lists a.connector := by
  have hmem := (h.takes a ha).mem
  rw [(h.branch_mem a ha).2] at hmem
  exact (covers_scan s w _ _ hmem).listed

/-- Everything that feeds a native join is executed by the connector settled there, if names
    are not ambiguous. -/
theorem Divided.owned_by (h : Divided s w settled m) (hone : s.OneDefinition) (join : Nat)
    (hjoin : join ∈ w.joins) (c : Connector) (hc : settled.lookup join = some c) :
    (∀ a ∈ m.branches, w.Feeds a.branch.initial join → a.connector = c) ∧
      ∀ stage ∈ m.stages, w.Feeds stage.join join → settled.lookup stage.join = some c := by
  rcases List.mem_iff_getElem?.mp hjoin with ⟨n, hn⟩
  rcases h.exists_brings (.stage n) join hn with ⟨_, hbrings, heq⟩
  cases hbrings with
  | branch _ _ _ => cases heq
  | stage _ own hown =>
      cases heq
      have hlisted := h.lists_settled own.join hjoin c hc
      constructor
      · intro a ha hfeeds
        rcases List.mem_iff_getElem?.mp ha with ⟨i, hi⟩
        have hplace := (h.place_of_branch i a hi).1
        have hscan := List.mem_of_getElem? hplace
        have hne : a.branch.initial ≠ own.join := fun heq =>
          Graph.not_mem_joins_of_mem_scans _ _ hscan (heq ▸ hjoin)
        have hunder := h.under_of_feeds n own hown _ (Workflow.mem_starts_of_scan w _ hscan)
          hfeeds hne (.branch i) hplace
        rcases h.owned_under n own hown c hc _ hunder with ⟨d, hd, hname, _⟩
        have hproduced : m.producer? (.branch i) = some a.connector := by
          simp [MultiPlan.producer?, hi]
        rw [hproduced, Option.some.injEq] at hd
        rw [← hd] at hname
        exact hone _ _ (h.lists_branch a ha) hlisted hname
      · intro stage hstage hfeeds
        by_cases hsame : stage.join = own.join
        · rw [hsame]
          exact hc
        · rcases List.mem_iff_getElem?.mp hstage with ⟨i, hi⟩
          have hplace := (h.stageOf i stage hi).1
          have hmem := List.mem_of_getElem? hplace
          have hunder := h.under_of_feeds n own hown _ (Workflow.mem_starts_of_join w _ hmem)
            hfeeds hsame (.stage i) hplace
          rcases h.owned_under n own hown c hc _ hunder with ⟨d, _, hname, hsettled⟩
          have hd := hsettled i stage rfl hi
          rw [← hone d c (h.lists_settled _ hmem d hd) hlisted hname]
          exact hd

/-- A native join that does not lead to another has taken a connector by choice. -/
theorem Divided.topmost_choice (h : Divided s w settled m) (join : Nat) (hjoin : join ∈ w.joins)
    (f : Fragment) (hf : partOf? s w join = some f)
    (htop : ∀ d, w.downstream join = some d → partOf? s w d = none) :
    ∃ c, settled.lookup join = some c ∧ choose f.candidates = .ok c := by
  rcases h.settled_takes join hjoin f hf with ⟨c, hc, htakes⟩
  refine ⟨c, hc, ?_⟩
  rcases htakes with htaken | ⟨_, hchoice⟩
  · -- What is taken over was settled for a native join.
    rcases (inherited?_spec _ _ _ c htaken).2 with ⟨d, e, hd, he, _⟩
    rw [part_downstream s w join (Workflow.mem_starts_of_join w join hjoin) f hf] at hd
    have hjoin' := (Workflow.downstream_spec w join d (Graph.lt_of_mem_joins _ _ hjoin) hd).1
    rcases h.part_of_settled d hjoin' e he with ⟨g, hg, _⟩
    rw [htop d hd] at hg
    cases hg
  · exact hchoice

end Owned

/-- Every join that one connector could own with all that feeds it, and that leads to no
    other such join, is given with everything below it to the owner with the smallest
    name, which joins with the first alternative that it declares. -/
theorem owned_by_least_name (config : PlannerConfig) (query : QueryId) (w : Workflow)
    (s : Snapshot) (hone : s.OneDefinition) (m : MultiPlan)
    (hp : planSelect config query w s = .ok (.multi m)) (join : Nat) (hjoin : join ∈ w.joins)
    (hown : ∃ c, CanOwn s w join c)
    (htop : ∀ other ∈ w.joins, other ≠ join → w.Leads join other → ¬∃ c, CanOwn s w other c) :
    ∃ c, CanOwn s w join c ∧
      (∀ d, CanOwn s w join d → d ≠ c → compare c.name d.name = .lt) ∧
      (∀ a ∈ m.branches, w.Leads a.branch.initial join → a.connector = c) ∧
      ∀ stage ∈ m.stages, w.Leads stage.join join →
        ∃ step capability, w.step? stage.join = some step ∧
          step.alternatives.find? c.supports = some capability ∧
            stage.executor = .connector c capability := by
  rcases divided_of_multi config query w s m hp with ⟨settled, h⟩
  have hstart := Workflow.mem_starts_of_join w join hjoin
  have howners := canOwn_iff s w hone join hjoin
  rcases hown with ⟨c, hc⟩
  rcases (howners c).mp hc with ⟨f, hf, _⟩
  have hmem : ∀ d, CanOwn s w join d ↔ d ∈ f.connectors := fun d => by
    rw [howners d, hf]
    simp
  -- The join it leads to is not native, so the choice is its own.
  rcases h.topmost_choice join hjoin f hf (fun d hd => by
    rcases Workflow.downstream_spec w join d (Workflow.starts_lt w join hstart) hd with ⟨hd', hlt⟩
    exact (partOf?_eq_none_iff s w hone d hd').mpr (htop d hd' (by omega)
      (Workflow.leads_downstream w join d (Workflow.starts_lt w join hstart) hd))) with
    ⟨least, hsettled, hchoice⟩
  have hleast := ((choose_fragment f least).mp hchoice).2.1
  rcases h.owned_by hone join hjoin least hsettled with ⟨hbranches, hstages⟩
  refine ⟨least, (hmem least).mpr hleast,
    fun d hd => choose_fragment_least f least hchoice d ((hmem d).mp hd), fun a ha hlead => ?_,
    fun stage hstage hlead => ?_⟩
  · have hscan := Workflow.mem_starts_of_scan w _ (h.branch_mem a ha).1
    exact hbranches a ha ((Workflow.leads_iff_feeds w _ join hscan hstart).mp hlead)
  · have hother := Workflow.mem_starts_of_join w _ (h.stage_mem stage hstage).1
    exact h.settled_executor stage hstage least
      (hstages stage hstage ((Workflow.leads_iff_feeds w _ join hother hstart).mp hlead))

/-- Two clusters share two connectors, and a third has one that takes partial results. -/
def twoLocals : Snapshot where
  clusters := .ofList
    [(⟨"east"⟩, [.joining ⟨"b"⟩ .selectInnerJoin, .joining ⟨"a"⟩ .selectInnerJoin]),
      (⟨"west"⟩, [.joining ⟨"a"⟩ .selectInnerJoin, .joining ⟨"b"⟩ .selectInnerJoin]),
      (⟨"north"⟩, [.joining ⟨"remote"⟩ .selectInnerJoinPartialResults])]
  tables := ∅

/-- The smaller of the shared connectors joins what it read itself. -/
def twoLocalsPlan : MultiPlan where
  query := ⟨"q"⟩
  branches :=
    [⟨wholeBranch twoLocals nestedRead 0, .joining ⟨"a"⟩ .selectInnerJoin⟩,
      ⟨wholeBranch twoLocals nestedRead 1, .joining ⟨"a"⟩ .selectInnerJoin⟩,
      ⟨wholeBranch twoLocals nestedRead 2, .joining ⟨"remote"⟩ .selectInnerJoinPartialResults⟩]
  stages :=
    [⟨3, [3], [.branch 0, .branch 1], [⟨⟨"shop"⟩, "orders"⟩, ⟨⟨"shop"⟩, "users"⟩],
        .connector (.joining ⟨"a"⟩ .selectInnerJoin) .selectInnerJoin⟩,
      ⟨4, [4], [.branch 2, .stage 0],
        [⟨⟨"shop"⟩, "items"⟩, ⟨⟨"shop"⟩, "orders"⟩, ⟨⟨"shop"⟩, "users"⟩],
        .connector (.joining ⟨"remote"⟩ .selectInnerJoinPartialResults)
          .selectInnerJoinPartialResults⟩]
  workflow := nestedRead

/-- Two connectors could join the users with the orders, and what they share is given to
    the smaller one. -/
theorem locals_owned :
    twoLocals.OneDefinition ∧
      planSelect .default ⟨"q"⟩ nestedRead twoLocals = .ok (.multi twoLocalsPlan) ∧
      CanOwn twoLocals nestedRead 3 (.joining ⟨"b"⟩ .selectInnerJoin) ∧
      (¬∃ c, CanOwn twoLocals nestedRead 4 c) ∧
      ∃ c, CanOwn twoLocals nestedRead 3 c ∧
        (∀ a ∈ twoLocalsPlan.branches, nestedRead.Leads a.branch.initial 3 → a.connector = c) ∧
        compare c.name ⟨"b"⟩ = .lt := by
  have hone : twoLocals.OneDefinition := by decide
  have hp : planSelect .default ⟨"q"⟩ nestedRead twoLocals = .ok (.multi twoLocalsPlan) := rfl
  have hpart : ∃ f, partOf? twoLocals nestedRead 3 = some f ∧
      .joining ⟨"b"⟩ .selectInnerJoin ∈ f.connectors := ⟨_, rfl, by decide⟩
  have hb := (canOwn_iff twoLocals nestedRead hone 3 (by decide) _).mpr hpart
  have hlast := (partOf?_eq_none_iff twoLocals nestedRead hone 4 (by decide)).mp rfl
  have htop : ∀ other ∈ nestedRead.joins, other ≠ 3 → nestedRead.Leads 3 other →
      ¬∃ c, CanOwn twoLocals nestedRead other c := by
    intro other hother hne _
    have hjoins : other ∈ [3, 4] := hother
    rcases List.mem_cons.mp hjoins with rfl | hmem
    · exact absurd rfl hne
    · rw [List.mem_singleton.mp hmem]
      exact hlast
  rcases owned_by_least_name .default ⟨"q"⟩ nestedRead twoLocals hone twoLocalsPlan hp 3
    (by decide) ⟨_, hb⟩ htop with ⟨c, hc, hleast, hbranches, _⟩
  refine ⟨hone, hp, hb, hlast, c, hc, hbranches, hleast _ hb fun heq => ?_⟩
  -- The larger one does not come before the other one.
  have ha := (canOwn_iff twoLocals nestedRead hone 3 (by decide)
    (.joining ⟨"a"⟩ .selectInnerJoin)).mpr ⟨_, rfl, by decide⟩
  have hlt := hleast _ ha (by rw [← heq]; decide)
  rw [← heq] at hlt
  exact absurd hlt (by decide)

end Federation
