import Federation.Proofs.Planner.Address
import Federation.Proofs.Planner.Order
import Federation.Proofs.Registry.Attachments

/-!
# Attachments Do Not Matter

The record of a connector lists the clusters that it serves, and goes into plans as it
is. No decision of the planner looks at that list. What it looks at are names, addresses
and capabilities, and it finds the connectors of a cluster by the cluster. So planning
commutes with striking the lists from all connectors: for each function of the planner
there is an equation which says so.

One place needs an argument. A choice is ambiguous if two connectors of a name differ in
anything, and they may differ in nothing but the clusters that they serve. Where a name
stands for one connector they do not differ at all, and a choice succeeds with the lists
and without. A list that is a rearrangement of itself is such a list.

## Main definitions

* `Branch.unattached`, `Fragment.unattached`, `Stage.unattached`: Without the clusters
  that the connectors serve.
* `Plan.unattached`: A plan without the clusters that its connectors serve.
* `planBranches`: The plan of a read whose branches are known.

## Theorems

* `branchOf_unattached`, `nativeFragments_unattached`: Branches and native joins.
* `choose_unattached`: A choice, where a name stands for one connector.
* `settle_unattached`, `assign_unattached`: Who is settled and assigned.
* `mergeStages_unattached`: The stages.
* `planBranches_unattached`: The plan.
* `planSelect_unattached`: Reads are planned in one way on snapshots that differ in
  nothing else.
-/

namespace Federation

namespace Connector

@[simp] theorem unattached_canRun (c : Connector) : c.unattached.canRun = c.canRun := rfl

@[simp] theorem unattached_capabilityFor? (c : Connector) (step : Step) :
    c.unattached.capabilityFor? step = c.capabilityFor? step := rfl

end Connector

/-! ### Lists of connectors -/

theorem ableTo_unattached (step : Step) (l : List Connector) :
    ableTo step (l.map Connector.unattached) = (ableTo step l).map Connector.unattached :=
  List.filter_map

theorem sharedWith_unattached (others l : List Connector) :
    sharedWith (others.map Connector.unattached) (l.map Connector.unattached)
      = (sharedWith others l).map Connector.unattached := by
  unfold sharedWith
  rw [List.filter_map]
  simp [Function.comp_def]

theorem find?_unattached (l : List Connector) (name : ConnectorName) :
    ((l.map Connector.unattached).find? fun c => c.name == name)
      = (l.find? fun c => c.name == name).map Connector.unattached :=
  List.find?_map

/-! ### Branches -/

/-- A walk without the clusters that the connectors serve. -/
def Reach.unattached (r : Reach) : Reach :=
  { r with connectors := r.connectors.map Connector.unattached }

/-- A branch without the clusters that the candidates serve. -/
def Branch.unattached (b : Branch) : Branch :=
  { b with connectors := b.connectors.map Connector.unattached }

theorem ableAt_unattached (w : Workflow) (id : Nat) (l : List Connector) :
    w.ableAt id (l.map Connector.unattached) = (w.ableAt id l).map Connector.unattached := by
  unfold Workflow.ableAt
  cases w.step? id with
  | none => rfl
  | some step => exact ableTo_unattached step l

/-- Connectors get as far without their clusters. -/
theorem cover_unattached (w : Workflow) (stop : Option Nat) (ids : List Nat)
    (running : List Connector) : w.cover stop (running.map Connector.unattached) ids
      = (w.cover stop running ids).unattached := by
  induction ids generalizing running with
  | nil => rfl
  | cons id rest ih =>
      unfold Workflow.cover
      rw [ableAt_unattached]
      cases w.ableAt id running with
      | nil => rfl
      | cons c narrowed =>
          have hfurther := ih (c :: narrowed)
          rw [List.map_cons] at hfurther ⊢
          simp only [hfurther]
          rfl

theorem reach_unattached (w : Workflow) (start : Option Nat) (running : List Connector) :
    w.reach start (running.map Connector.unattached) = (w.reach start running).unattached :=
  cover_unattached w _ _ running

/-- The branch of a scan is found without looking at clusters. -/
theorem branchOf_unattached (w : Workflow) (initial : Nat) (found : List Connector) :
    Branch.of w initial (found.map Connector.unattached)
      = (Branch.of w initial found).map Branch.unattached := by
  unfold Branch.of
  cases w.step? initial with
  | none => rfl
  | some step =>
      cases step with
      | scan table cluster columns =>
          simp only [ableTo_unattached]
          cases ableTo (.scan table cluster columns) found with
          | nil => rfl
          | cons c running =>
              have hreach := reach_unattached w (w.next? initial) (c :: running)
              rw [List.map_cons] at hreach ⊢
              simp only [hreach]
              rfl
      | filter relation operation => rfl
      | projection columns window => rfl
      | join relation alternatives => rfl

/-! ### Native joins -/

/-- A fragment without the clusters that its connectors serve. -/
def Fragment.unattached (f : Fragment) : Fragment :=
  { f with connectors := f.connectors.map Connector.unattached }

/-- What feeds a join is told by where it leads. -/
theorem feeding_unattached (join : Nat) (branches : List Branch) (found : List (Nat × Fragment)) :
    feeding join (branches.map Branch.unattached) (found.map (Prod.map id Fragment.unattached))
      = (feeding join branches found).map Fragment.unattached := by
  have hbranches : (branches.map Branch.unattached).map Fragment.ofBranch
      = (branches.map Fragment.ofBranch).map Fragment.unattached := by
    rw [List.map_map, List.map_map]
    rfl
  have hfound : (found.map (Prod.map id Fragment.unattached)).map (·.2)
      = (found.map (·.2)).map Fragment.unattached := by
    rw [List.map_map, List.map_map]
    rfl
  unfold feeding
  rw [hbranches, hfound, ← List.map_append, List.filter_map]
  rfl

/-- Whether a join is native is found without looking at clusters. -/
theorem fragmentAt?_unattached (w : Workflow) (branches : List Branch)
    (found : List (Nat × Fragment)) (join : Nat) :
    fragmentAt? w (branches.map Branch.unattached) (found.map (Prod.map id Fragment.unattached))
        join = (fragmentAt? w branches found join).map Fragment.unattached := by
  unfold fragmentAt?
  rw [feeding_unattached]
  rcases feeding join branches found with _ | ⟨left, _ | ⟨right, _ | ⟨third, more⟩⟩⟩
  · rfl
  · rfl
  · have hable : w.ableAt join (sharedWith right.unattached.connectors left.unattached.connectors)
        = (w.ableAt join (sharedWith right.connectors left.connectors)).map
            Connector.unattached := by
      rw [← ableAt_unattached, ← sharedWith_unattached]
      rfl
    simp only [List.map_cons, List.map_nil, hable]
    cases w.ableAt join (sharedWith right.connectors left.connectors) with
    | nil => rfl
    | cons c running =>
        have hreach := reach_unattached w (w.next? join) (c :: running)
        rw [List.map_cons] at hreach ⊢
        simp only [hreach, Reach.unattached]
        split
        · rfl
        · rfl
  · rfl

/-- The native joins are found without looking at clusters. -/
theorem nativeFragments_unattached (w : Workflow) (branches : List Branch) :
    nativeFragments w (branches.map Branch.unattached)
      = (nativeFragments w branches).map (Prod.map id Fragment.unattached) := by
  unfold nativeFragments
  change List.foldl _ (List.map (Prod.map id Fragment.unattached) []) _ = _
  refine List.foldl_hom (List.map (Prod.map id Fragment.unattached)) fun found join => ?_
  rw [fragmentAt?_unattached]
  cases fragmentAt? w branches found join with
  | none => rfl
  | some fragment =>
      simp only [Option.map_some, List.map_append]
      rfl

-- What is known of a join is found under its number.
theorem lookup_relabelled {β γ : Type} (r : β → γ) (l : List (Nat × β)) (join : Nat) :
    (l.map (Prod.map id r)).lookup join = (l.lookup join).map r := by
  induction l with
  | nil => rfl
  | cons e rest ih =>
      rw [List.map_cons, Prod.map, List.lookup_cons, List.lookup_cons, id]
      cases join == e.1 with
      | true => rfl
      | false => exact ih

/-- So is the fragment that is the whole workflow. -/
theorem wholeFragment?_unattached (w : Workflow) (branches : List Branch)
    (found : List (Nat × Fragment)) :
    wholeFragment? w (branches.map Branch.unattached) (found.map (Prod.map id Fragment.unattached))
      = (wholeFragment? w branches found).map Fragment.unattached := by
  unfold wholeFragment?
  simp only [lookup_relabelled, Option.isSome_map]
  cases w.joins with
  | nil =>
      rcases branches with _ | ⟨b, _ | ⟨b', more⟩⟩
      · rfl
      · by_cases hnext : b.next.isNone = true
        · simp [Branch.unattached, Fragment.unattached, Fragment.ofBranch, hnext]
        · simp [Branch.unattached, hnext]
      · rfl
  | cons join rest =>
      simp only
      split
      · rw [List.find?_map, Option.map_map, Option.map_map]
        rfl
      · rfl

/-! ### Settled and assigned connectors -/

theorem commonNames_unattached (lists : List (List Connector)) :
    commonNames (lists.map (List.map Connector.unattached)) = commonNames lists := by
  cases lists with
  | nil => rfl
  | cons first others =>
      unfold commonNames
      simp [Function.comp_def]

-- A fragment is for the same tables.
theorem keys_unattached (f : Fragment) : f.unattached.candidates.keys = f.candidates.keys := by
  unfold Fragment.candidates
  rw [SortedMap.keys_ofList_map (fun _ => f.unattached.connectors),
    SortedMap.keys_ofList_map (fun _ => f.connectors)]
  rfl

-- For each of them it has the same connectors.
theorem values_unattached (f : Fragment) : f.unattached.candidates.values
    = f.candidates.values.map (List.map Connector.unattached) := by
  rw [values_candidates, values_candidates, keys_unattached, List.map_replicate]
  rfl

theorem bearers_unattached (lists : List (List Connector)) (name : ConnectorName) :
    ((lists.map (List.map Connector.unattached)).flatten.filter fun c => c.name == name)
      = (lists.flatten.filter fun c => c.name == name).map Connector.unattached := by
  rw [← List.map_flatten, List.filter_map]
  rfl

-- All that bear a name are one connector.
theorem bearers_sole (f : Fragment) (h : f.Alike f) (name : ConnectorName) (l : List Connector)
    (hl : f.candidates.values.flatten.filter (fun c => c.name == name) = l) :
    ∀ c ∈ l, ∀ d ∈ l, c = d := by
  have hbearer : ∀ c ∈ l, c ∈ f.connectors ∧ c.name = name := by
    intro c hc
    rw [← hl, List.mem_filter, List.mem_flatten, beq_iff_eq] at hc
    rcases hc with ⟨⟨listed, hlisted, hc⟩, hname⟩
    rw [((mem_values_candidates f listed).mp hlisted).2] at hc
    exact ⟨hc, hname⟩
  intro c hc d hd
  exact h.connectors.sole c (hbearer c hc).1 d (hbearer d hd).1
    ((hbearer c hc).2.trans (hbearer d hd).2.symm)

-- All that follow are like the first if no two members differ.
theorem all_beq_iff (chosen : Connector) (others : List Connector) :
    (others.all fun c => c == chosen) = true ↔
      ∀ c ∈ chosen :: others, ∀ d ∈ chosen :: others, c = d := by
  rw [List.all_eq_true]
  constructor
  · intro h
    have hchosen : ∀ c ∈ chosen :: others, c = chosen := fun c hc => by
      rcases List.mem_cons.mp hc with heq | hc
      · exact heq
      · exact beq_iff_eq.mp (h c hc)
    exact fun c hc d hd => (hchosen c hc).trans (hchosen d hd).symm
  · exact fun h c hc =>
      beq_iff_eq.mpr (h c (List.mem_cons_of_mem _ hc) chosen List.mem_cons_self)

/-- A choice among connectors of which each has a name of its own does not look at
    clusters. -/
theorem choose_unattached (f : Fragment) (h : f.Alike f) :
    choose f.unattached.candidates = (choose f.candidates).map Connector.unattached := by
  unfold choose
  rw [keys_unattached, values_unattached, commonNames_unattached]
  cases commonNames f.candidates.values with
  | nil => rfl
  | cons winner _ =>
      simp only [bearers_unattached]
      cases hentries : f.candidates.values.flatten.filter fun c => c.name == winner with
      | nil => rfl
      | cons chosen others =>
          -- With their clusters or without, no two of them differ.
          have hsole := bearers_sole f h winner _ hentries
          have hsole' : ∀ c ∈ (chosen :: others).map Connector.unattached,
              ∀ d ∈ (chosen :: others).map Connector.unattached, c = d := by
            simp only [List.forall_mem_map]
            intro c hc d hd
            rw [hsole c hc d hd]
          rw [List.map_cons] at hsole' ⊢
          simp only
          rw [if_pos ((all_beq_iff _ _).mpr hsole), if_pos ((all_beq_iff _ _).mpr hsole')]
          rfl

-- What is taken over is found by its name.
theorem inherited?_unattached (settled : List (Nat × Connector)) (downstream : Option Nat)
    (l : List Connector) :
    inherited? (settled.map (Prod.map id Connector.unattached)) downstream
        (l.map Connector.unattached)
      = (inherited? settled downstream l).map Connector.unattached := by
  unfold inherited?
  cases downstream with
  | none => rfl
  | some join =>
      simp only [Option.bind_eq_bind, Option.bind_some, lookup_relabelled]
      cases settled.lookup join with
      | none => rfl
      | some chosen => exact find?_unattached l chosen.name

/-- The connectors that are settled are told by their names. -/
theorem settle_unattached (native : List (Nat × Fragment)) (h : ∀ e ∈ native, e.2.Alike e.2) :
    settle (native.map (Prod.map id Fragment.unattached))
      = (settle native).map (List.map (Prod.map id Connector.unattached)) := by
  induction native with
  | nil => rfl
  | cons e later ih =>
      obtain ⟨join, f⟩ := e
      have hchoice := choose_unattached f (h _ List.mem_cons_self)
      rw [List.map_cons, Prod.map, settle, settle]
      refine bind_relabelled (List.map (Prod.map id Connector.unattached)) _
        (ih fun e he => h e (List.mem_cons_of_mem _ he)) fun settled _ => ?_
      simp only [Fragment.unattached, inherited?_unattached]
      cases inherited? settled f.downstream f.connectors with
      | some c => rfl
      | none => exact bind_relabelled Connector.unattached _ hchoice fun c _ => rfl

/-- An assigned branch without the clusters that its connectors serve. -/
def AssignedBranch.unattached (a : AssignedBranch) : AssignedBranch :=
  ⟨a.branch.unattached, a.connector.unattached⟩

/-- A branch is assigned without looking at clusters. -/
theorem assign_unattached (settled : List (Nat × Connector)) (b : Branch) (h : b.Alike b) :
    assign (settled.map (Prod.map id Connector.unattached)) b.unattached
      = (assign settled b).map AssignedBranch.unattached := by
  have hchoice : chooseFor b.table (b.connectors.map Connector.unattached)
      = (chooseFor b.table b.connectors).map Connector.unattached :=
    choose_unattached _ (ofBranch_alike h)
  unfold assign
  simp only [Branch.unattached, inherited?_unattached, hchoice]
  cases inherited? settled b.next b.connectors with
  | some c => rfl
  | none =>
      cases chooseFor b.table b.connectors with
      | ok c => rfl
      | error cause => rfl

/-! ### Stages -/

/-- What arrives at a join, without the clusters that its connector serves. -/
def Feed.unattached (f : Feed) : Feed :=
  { f with executor := f.executor.map Connector.unattached }

/-- An executor without the clusters that it serves. -/
def StageExecutor.unattached : StageExecutor → StageExecutor
  | .connector c join => .connector c.unattached join
  | .coordinator => .coordinator

/-- A stage without the clusters that its connector serves. -/
def Stage.unattached (stage : Stage) : Stage :=
  { stage with executor := stage.executor.unattached }

theorem StageExecutor.connector?_unattached (executor : StageExecutor) :
    executor.unattached.connector? = executor.connector?.map Connector.unattached := by
  cases executor with
  | connector c join => rfl
  | coordinator => rfl

-- Items that are numbered keep their numbers.
theorem filterMap_relabelled {β γ δ ζ : Type} (r : β → γ) (r' : δ → ζ) (l : List β)
    (f : β × Nat → Option δ) (g : γ × Nat → Option ζ)
    (h : ∀ b i, g (r b, i) = (f (b, i)).map r') :
    (l.map r).zipIdx.filterMap g = (l.zipIdx.filterMap f).map r' := by
  rw [List.zipIdx_map, List.filterMap_map, List.map_filterMap]
  exact List.filterMap_congr fun e _ => h e.1 e.2

/-- What arrives at a join is told without looking at clusters. -/
theorem feedsOf_unattached (w : Workflow) (branches : List AssignedBranch) (stages : List Stage)
    (join : Nat) :
    feedsOf w (branches.map AssignedBranch.unattached) (stages.map Stage.unattached) join
      = (feedsOf w branches stages join).map Feed.unattached := by
  unfold feedsOf
  rw [List.map_append]
  congr 1
  · refine filterMap_relabelled _ _ _ _ _ fun b i => ?_
    by_cases hnext : b.branch.next = some join
    · simp [AssignedBranch.unattached, Branch.unattached, Feed.unattached, hnext]
    · simp [AssignedBranch.unattached, Branch.unattached, hnext]
  · refine filterMap_relabelled _ _ _ _ _ fun stage i => ?_
    by_cases hdown : w.downstream stage.join = some join
    · simp [Stage.unattached, Feed.unattached, StageExecutor.connector?_unattached, hdown]
    · simp [Stage.unattached, hdown]

theorem weightOf_unattached (name : ConnectorName) (feeds : List Feed) :
    weightOf name (feeds.map Feed.unattached) = weightOf name feeds := by
  induction feeds with
  | nil => rfl
  | cons f rest ih =>
      have hname : f.unattached.executor.any (fun c => c.name == name)
          = f.executor.any fun c => c.name == name := Option.any_map
      rw [List.map_cons, weightOf, weightOf, ih, hname]
      rfl

theorem tally_unattached (feeds : List Feed) :
    tally (feeds.map Feed.unattached)
      = (tally feeds).map (Prod.map Connector.unattached id) := by
  have hexecutors : (feeds.map Feed.unattached).filterMap Feed.executor
      = (feeds.filterMap Feed.executor).map Connector.unattached := by
    rw [List.filterMap_map, List.map_filterMap]
    rfl
  have hnames : ((feeds.filterMap Feed.executor).map Connector.unattached).map Connector.name
      = (feeds.filterMap Feed.executor).map Connector.name := List.map_map
  unfold tally
  simp only [hexecutors, hnames, weightOf_unattached, find?_unattached]
  refine (List.filterMap_congr fun name _ => ?_).trans List.map_filterMap.symm
  rw [Option.map_map, Option.map_map]
  rfl

theorem heaviest_unattached (entries : List (Connector × Nat)) :
    heaviest (entries.map (Prod.map Connector.unattached id))
      = (heaviest entries).map (Prod.map Connector.unattached id) := by
  induction entries with
  | nil => rfl
  | cons entry rest ih =>
      rw [List.map_cons, heaviest, heaviest, ih]
      cases heaviest rest with
      | none => rfl
      | some best =>
          simp only [Option.map_some, Prod.map_snd, id]
          split
          · rfl
          · rfl

/-- Who merges partial results is told by what arrives. -/
theorem mergeExecutor?_unattached (w : Workflow) (join : Nat) (after : List Nat)
    (feeds : List Feed) :
    mergeExecutor? w join after (feeds.map Feed.unattached)
      = (mergeExecutor? w join after feeds).map Connector.unattached := by
  unfold mergeExecutor?
  simp only [tally_unattached, List.filter_map]
  split
  · simp only [Function.comp_def, Prod.map_fst, Connector.unattached_supports,
      Connector.unattached_canRun, heaviest_unattached, Option.map_map]
  · rfl

theorem nativeExecutor?_unattached (w : Workflow) (settled : List (Nat × Connector))
    (join : Nat) : nativeExecutor? w (settled.map (Prod.map id Connector.unattached)) join
      = (nativeExecutor? w settled join).map StageExecutor.unattached := by
  unfold nativeExecutor?
  simp only [lookup_relabelled, Option.bind_eq_bind]
  cases settled.lookup join with
  | none => rfl
  | some c =>
      cases w.step? join with
      | none => rfl
      | some step =>
          simp only [Option.map_some, Option.bind_some, Connector.unattached_capabilityFor?]
          cases c.capabilityFor? step with
          | none => rfl
          | some capability => rfl

/-- The stage of a join is made without looking at clusters. -/
theorem stageAt_unattached (fallback : MergeFallback) (w : Workflow)
    (branches : List AssignedBranch) (settled : List (Nat × Connector)) (stages : List Stage)
    (join : Nat) :
    stageAt fallback w (branches.map AssignedBranch.unattached)
        (settled.map (Prod.map id Connector.unattached)) (stages.map Stage.unattached) join
      = (stageAt fallback w branches settled stages join).map Stage.unattached := by
  have htables : ((feedsOf w branches stages join).map Feed.unattached).flatMap Feed.tables
      = (feedsOf w branches stages join).flatMap Feed.tables := List.flatMap_map _ _ _
  have hinputs : ((feedsOf w branches stages join).map Feed.unattached).map Feed.input
      = (feedsOf w branches stages join).map Feed.input := List.map_map
  unfold stageAt
  simp only [feedsOf_unattached, nativeExecutor?_unattached, mergeExecutor?_unattached, htables,
    hinputs]
  cases nativeExecutor? w settled join with
  | some executor => rfl
  | none =>
      cases mergeExecutor? w join (w.segment (w.next? join)).steps
          (feedsOf w branches stages join) with
      | some c => rfl
      | none =>
          cases fallback with
          | coordinator => rfl
          | reject => rfl

/-- The stages are made without looking at clusters. -/
theorem mergeStages_unattached (fallback : MergeFallback) (w : Workflow)
    (branches : List AssignedBranch) (settled : List (Nat × Connector)) :
    mergeStages fallback w (branches.map AssignedBranch.unattached)
        (settled.map (Prod.map id Connector.unattached))
      = (mergeStages fallback w branches settled).map (List.map Stage.unattached) := by
  unfold mergeStages
  refine foldlM_relabelled (List.map Stage.unattached) w.joins [] fun stages join => ?_
  refine bind_relabelled Stage.unattached _
    (stageAt_unattached fallback w branches settled stages join) fun stage _ => ?_
  show Except.ok (stages.map Stage.unattached ++ [stage].map Stage.unattached)
    = Except.ok ((stages ++ [stage]).map Stage.unattached)
  rw [List.map_append]

/-! ### Plans -/

/-- A plan in branches without the clusters that its connectors serve. -/
def MultiPlan.unattached (m : MultiPlan) : MultiPlan :=
  { m with
    branches := m.branches.map AssignedBranch.unattached
    stages := m.stages.map Stage.unattached }

/-- A plan without the clusters that its connectors serve. -/
def Plan.unattached : Plan → Plan
  | .single p => .single { p with connector := p.connector.unattached }
  | .multi m => .multi m.unattached
  | .storage p => .storage { p with connector := p.connector.unattached }

/-- A plan is explained without the clusters that its connectors serve. -/
theorem Plan.unattached_text (p : Plan) : p.unattached.text = p.text := by
  have hexecutor : ∀ executor : StageExecutor, executor.unattached.text = executor.text := by
    intro executor
    cases executor with
    | connector c join => rfl
    | coordinator => rfl
  unfold Plan.unattached MultiPlan.unattached Plan.text
  cases p with
  | single p =>
      dsimp only
      rw [Connector.unattached_text]
  | storage p =>
      dsimp only
      rw [Connector.unattached_text]
  | multi p =>
      simp only [List.zipIdx_map, List.map_map]
      congr 3
      funext e
      simp only [Function.comp_apply, Prod.map, Stage.unattached, hexecutor]
      rfl

/-- The same is sent to the same connectors. -/
theorem Plan.unattached_units (p : Plan) : p.unattached.units = p.units := by
  cases p with
  | single p => rfl
  | storage p => rfl
  | multi p =>
      simp only [unattached, MultiPlan.unattached, units, List.map_map, List.filterMap_map]
      congr 1
      refine List.filterMap_congr fun stage _ => ?_
      simp only [Function.comp_apply, Stage.unattached, StageExecutor.connector?_unattached,
        Option.map_map]
      rfl

theorem during_map {α β : Type} (query : QueryId) (phase : Phase) (r : α → β)
    (x : Except PlanningCause α) :
    during query phase (x.map r) = (during query phase x).map r := by
  cases x with
  | ok a => rfl
  | error cause => rfl

/-- The branches and stages of a read are told without looking at clusters. -/
theorem splitPlan_unattached (fallback : MergeFallback) (query : QueryId) (w : Workflow)
    (branches : List Branch) (native : List (Nat × Fragment)) (hb : ∀ b ∈ branches, b.Alike b)
    (hn : ∀ e ∈ native, e.2.Alike e.2) :
    splitPlan fallback query w (branches.map Branch.unattached)
        (native.map (Prod.map id Fragment.unattached))
      = (splitPlan fallback query w branches native).map MultiPlan.unattached := by
  unfold splitPlan
  refine bind_relabelled _ _ (settle_unattached native hn) fun settled _ => ?_
  refine bind_relabelled (List.map AssignedBranch.unattached) _ ?_ fun assigned _ => ?_
  · exact mapM_relabelled _ _ branches fun b hmem => assign_unattached settled b (hb b hmem)
  · exact bind_relabelled _ _ (mergeStages_unattached fallback w assigned settled)
      fun stages _ => rfl

-- As many stages are too many or not.
theorem limitStages_unattached (config : PlannerConfig) (m : MultiPlan) :
    limitStages config m.unattached = (limitStages config m).map Plan.unattached := by
  have hlength : m.unattached.stages.length = m.stages.length := List.length_map _
  unfold limitStages
  rw [hlength]
  by_cases h : config.maxStages < m.stages.length
  · rw [if_pos h, if_pos h]
    rfl
  · rw [if_neg h, if_neg h]
    rfl

/-- The plan of a read whose branches are known. -/
def planBranches (config : PlannerConfig) (query : QueryId) (w : Workflow)
    (branches : List Branch) : Except PlanningError Plan :=
  let native := nativeFragments w branches
  match wholeFragment? w branches native with
  | some fragment => during query .pathsBuilt (wholePlan query w fragment)
  | none => do
    let split ← during query .pathsBuilt (splitPlan config.fallback query w branches native)
    during query .connectorsChosen (limitStages config split)

theorem planSelect_eq_bind (config : PlannerConfig) (query : QueryId) (w : Workflow)
    (s : Snapshot) : planSelect config query w s
      = (during query .unplanned (branchesOf s w) >>= planBranches config query w) := rfl

/-- From the branches on a read is planned without looking at clusters, if each of its
    connectors has a name of its own. -/
theorem planBranches_unattached (config : PlannerConfig) (query : QueryId) (w : Workflow)
    (branches : List Branch) (h : ∀ b ∈ branches, b.Alike b) :
    planBranches config query w (branches.map Branch.unattached)
      = (planBranches config query w branches).map Plan.unattached := by
  have hbranches := List.forall₂_same.mpr h
  have hnative := nativeFragments_alike w hbranches
  have hsole : ∀ e ∈ nativeFragments w branches, e.2.Alike e.2 := fun e he =>
    (List.forall₂_same.mp hnative e he).2
  have hwhole := wholeFragment?_alike w hbranches hnative
  unfold planBranches
  simp only [nativeFragments_unattached, wholeFragment?_unattached]
  cases hf : wholeFragment? w branches (nativeFragments w branches) with
  | some f =>
      rw [hf] at hwhole
      cases hwhole with
      | some hfragment =>
          simp only [Option.map_some]
          rw [← during_map]
          refine congrArg _ ?_
          exact bind_relabelled Connector.unattached _ (choose_unattached f hfragment)
            fun c _ => rfl
  | none =>
      simp only [Option.map_none]
      refine bind_relabelled MultiPlan.unattached _ ?_ fun m _ => ?_
      · rw [splitPlan_unattached _ query w branches _ h hsole, during_map]
      · rw [limitStages_unattached, during_map]

/-! ### Snapshots -/

/-- Whether two snapshots list the same for the clusters that a workflow reads, but for
    the clusters that the connectors serve. -/
def Snapshot.SameFor (w : Workflow) (s s' : Snapshot) : Prop :=
  ∀ cluster ∈ w.clusters, (s.connectorsOf cluster).map Connector.unattached
    = (s'.connectorsOf cluster).map Connector.unattached

-- Which branch stops too early is told by the steps.
theorem findSome?_gap?_unattached (w : Workflow) (branches : List Branch) :
    (branches.map Branch.unattached).findSome? (Branch.gap? w)
      = branches.findSome? (Branch.gap? w) :=
  List.findSome?_map

/-- The branches on such snapshots are the same, but for the clusters that the
    candidates serve. -/
theorem branchesOf_sameFor (s s' : Snapshot) (w : Workflow) (h : s.SameFor w s') :
    Agree (fun branches branches' => branches.map Branch.unattached
        = branches'.map Branch.unattached) (branchesOf s w) (branchesOf s' w) := by
  unfold branchesOf
  have hscan : ∀ t ∈ w.initialSteps, Agree (fun b b' => b.unattached = b'.unattached)
      (Branch.of w t ((((w.step? t).bind Step.scannedTable?).bind (candidates s w).get?).getD []))
      (Branch.of w t
        ((((w.step? t).bind Step.scannedTable?).bind (candidates s' w).get?).getD [])) := by
    intro t ht
    rcases (Graph.mem_scans _ t).mp ht with ⟨table, cluster, columns, hstep⟩
    rw [candidates_of_scan s w t table cluster columns hstep,
      candidates_of_scan s' w t table cluster columns hstep]
    refine agree_of_map_eq _ _ _ _ ?_
    -- Both candidates are scans of one list, but for the clusters.
    have hlists := congrArg (List.filter fun c => c.supports .scan) (h _ (home_mem_clusters w t ht))
    rw [List.filter_map, List.filter_map] at hlists
    rw [← branchOf_unattached, ← branchOf_unattached]
    exact congrArg (Branch.of w t) hlists
  refine Agree.bind (R := fun branches branches' => branches.map Branch.unattached
    = branches'.map Branch.unattached) ?_ fun branches branches' hbranches => ?_
  · refine (Agree.mapM_self _ hscan).imp fun branches branches' hb => ?_
    rw [← List.forall₂_eq_eq_eq, List.forall₂_map_left_iff, List.forall₂_map_right_iff]
    exact hb
  · rw [← findSome?_gap?_unattached w branches, hbranches, findSome?_gap?_unattached]
    cases branches'.findSome? (Branch.gap? w) with
    | some cause => exact Agree.error cause
    | none => exact Agree.ok _ _ hbranches

-- Where names are not ambiguous each branch is a rearrangement of itself.
theorem branch_alike_self (s : Snapshot) (w : Workflow) (hone : s.OneDefinition)
    (branches : List Branch) (h : branchesOf s w = .ok branches) :
    ∀ b ∈ branches, b.Alike b := by
  have hself := branchesOf_alike s s w ⟨fun _ => List.Perm.refl _, hone⟩
  rw [h] at hself
  cases hself with
  | ok _ _ hbranches => exact List.forall₂_same.mp hbranches

/-- On snapshots that differ in nothing but the clusters that connectors serve, and in
    which a name stands for one connector, a read is planned in one way but for these
    clusters, or fails in one way. -/
theorem planSelect_unattached (config : PlannerConfig) (query : QueryId) (w : Workflow)
    (s s' : Snapshot) (hone : s.OneDefinition) (hone' : s'.OneDefinition)
    (h : s.SameFor w s') :
    (planSelect config query w s).map Plan.unattached
      = (planSelect config query w s').map Plan.unattached := by
  rw [planSelect_eq_bind, planSelect_eq_bind]
  rcases (agree_iff _ _ _).mp (branchesOf_sameFor s s' w h) with
    ⟨cause, hs, hs'⟩ | ⟨branches, branches', hs, hs', hbranches⟩
  · rw [hs, hs']
  · have hplan := planBranches_unattached config query w branches
      (branch_alike_self s w hone branches hs)
    have hplan' := planBranches_unattached config query w branches'
      (branch_alike_self s' w hone' branches' hs')
    rw [hs, hs']
    show (planBranches config query w branches).map _ = (planBranches config query w branches').map _
    rw [← hplan, ← hplan', hbranches]

end Federation
