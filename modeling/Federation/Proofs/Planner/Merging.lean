import Federation.Proofs.Planner.Address
import Federation.Proofs.Planner.Subtree
import Mathlib.Algebra.GroupWithZero.Nat

/-!
# Who Merges a Join

A join that is not native is merged by a connector that executed one of its inputs, if one
of them accepts partial results and can run what follows the join. Steps are counted for
each name over all that arrives, whoever executed it, and of the connectors that are left
the one with most steps is taken, the smaller name first.

The planner counts by name, looks a name up to the first connector that bears it, and drops
connectors only after they have been counted. Where a name stands for one connector none of
this can be seen from outside: the steps of a connector are those of the inputs that it
executed, and the rule compares connectors. Nor does it matter in which order the inputs
are listed, since nothing but sums and names are compared.

## Main definitions

* `Foremost`: The connector with most steps, or the smallest name among those.
* `Fit`: A connector that could merge what arrives at a join.
* `MultiPlan.stepsOf`: The steps that were executed for an input.
* `MultiPlan.servedBy`: How many steps of some inputs a connector executed.
* `CanMerge`: A connector that could merge what a stage reads.

## Theorems

* `Foremost.unique`: There is at most one such connector.
* `heaviest_iff_foremost`: The heaviest entry of an ascending list is foremost.
* `mem_tally`: Whose steps are counted.
* `mergeExecutor?_iff_foremost`: The connector that merges a join is foremost.
* `mergeExecutor?_perm`: It does not matter how inputs are ordered.
* `canMerge_iff`: The connectors that are left for a stage.
* `merged_by_most_steps`: Who executes a stage whose join is not native.
* `projected_merged`: A connector that has read and projected goes first.
-/

namespace Federation

/-- The first of some connectors: all others weigh less, or as much under a greater
    name. -/
structure Foremost (fit : Connector → Prop) (weight : Connector → Nat) (c : Connector) :
    Prop where
  mem : fit c
  others : ∀ d, fit d → d ≠ c →
    weight d < weight c ∨ weight d = weight c ∧ compare c.name d.name = .lt

theorem Foremost.unique {fit : Connector → Prop} {weight : Connector → Nat} {c d : Connector}
    (hc : Foremost fit weight c) (hd : Foremost fit weight d) : c = d := by
  by_contra hne
  rcases hc.others d hd.mem (Ne.symm hne) with hless | ⟨_, hname⟩
  · rcases hd.others c hc.mem hne with hmore | ⟨hsame, _⟩
    · omega
    · omega
  · rcases hd.others c hc.mem hne with hmore | ⟨_, hname'⟩
    · omega
    · rw [Std.OrientedCmp.gt_of_lt hname] at hname'
      cases hname'

/-- In the order of names the heaviest entry is the foremost. -/
theorem heaviest_iff_foremost (fit : Connector → Prop) (weight : Connector → Nat)
    (entries : List (Connector × Nat)) (hmem : ∀ e, e ∈ entries ↔ fit e.1 ∧ e.2 = weight e.1)
    (hasc : entries.Pairwise fun d e => compare d.1.name e.1.name = .lt) (c : Connector) :
    (heaviest entries).map (·.1) = some c ↔ Foremost fit weight c := by
  have hforemost : ∀ e, heaviest entries = some e → Foremost fit weight e.1 := by
    intro e he
    have hfit := (hmem e).mp (heaviest_mem entries e he)
    rcases heaviest_split entries e he with ⟨before, after, hsplit, hbefore, hafter⟩
    refine ⟨hfit.1, fun d hd hne => ?_⟩
    have hentry := (hmem (d, weight d)).mpr ⟨hd, rfl⟩
    rw [hsplit, List.mem_append, List.mem_cons] at hentry
    rcases hentry with hentry | heq | hentry
    · have hlt := hbefore _ hentry
      rw [hfit.2] at hlt
      exact Or.inl hlt
    · exact absurd (congrArg Prod.fst heq) hne
    · -- Entries that follow have greater names.
      have hle := hafter _ hentry
      rw [hfit.2] at hle
      rw [hsplit] at hasc
      have hname := (List.pairwise_cons.mp (List.pairwise_append.mp hasc).2.1).1 _ hentry
      rcases Nat.lt_or_eq_of_le hle with hlt | heq
      · exact Or.inl hlt
      · exact Or.inr ⟨heq, hname⟩
  constructor
  · intro h
    rcases Option.map_eq_some_iff.mp h with ⟨e, he, rfl⟩
    exact hforemost e he
  · intro hc
    cases hbest : heaviest entries with
    | none =>
        have hentry := (hmem (c, weight c)).mpr ⟨hc.mem, rfl⟩
        rw [(heaviest_eq_none_iff entries).mp hbest] at hentry
        exact absurd hentry List.not_mem_nil
    | some e => exact congrArg some ((hforemost e hbest).unique hc)

section Tally

/-- Whether a connector executed something that arrives. -/
def Executed (feeds : List Feed) (c : Connector) : Prop := ∃ f ∈ feeds, f.executor = some c

/-- How many steps of what arrives a connector executed. -/
def servedOf (feeds : List Feed) (c : Connector) : Nat :=
  ((feeds.filter fun f => f.executor = some c).map Feed.weight).sum

/-- Whether what arrives from one name was executed by one connector. -/
def OneExecutor (feeds : List Feed) : Prop :=
  ∀ c d, Executed feeds c → Executed feeds d → c.name = d.name → c = d

variable (feeds : List Feed)

theorem mem_executors (c : Connector) :
    c ∈ feeds.filterMap Feed.executor ↔ Executed feeds c := List.mem_filterMap

-- The steps of a name are summed over what its connectors executed.
theorem weightOf_eq_sum (name : ConnectorName) : weightOf name feeds
    = ((feeds.filter fun f => f.executor.any fun c => c.name == name).map Feed.weight).sum := by
  induction feeds with
  | nil => rfl
  | cons f rest ih =>
      unfold weightOf
      by_cases hnamed : (f.executor.any fun c => c.name == name) = true
      · rw [if_pos hnamed, List.filter_cons, if_pos hnamed, List.map_cons, List.sum_cons, ih]
      · rw [if_neg hnamed, List.filter_cons, if_neg hnamed, ih]

theorem weightOf_eq_served (hone : OneExecutor feeds) (c : Connector) (hc : Executed feeds c) :
    weightOf c.name feeds = servedOf feeds c := by
  rw [weightOf_eq_sum]
  unfold servedOf
  congr 2
  refine List.filter_congr fun f hf => ?_
  rw [Bool.eq_iff_iff, Option.any_eq_true, decide_eq_true_eq]
  constructor
  · rintro ⟨d, hd, hname⟩
    rw [hd, hone d c ⟨f, hf, hd⟩ hc (beq_iff_eq.mp hname)]
  · intro hd
    exact ⟨c, hd, beq_self_eq_true c.name⟩

-- A name is looked up to the connector that bears it.
theorem find?_executor (hone : OneExecutor feeds) (c : Connector) (hc : Executed feeds c) :
    (feeds.filterMap Feed.executor).find? (fun d => d.name == c.name) = some c := by
  cases hfound : (feeds.filterMap Feed.executor).find? (fun d => d.name == c.name) with
  | none =>
      have hnone := List.find?_eq_none.mp hfound c ((mem_executors feeds c).mpr hc)
      exact absurd (beq_self_eq_true c.name) hnone
  | some d =>
      have hd := (mem_executors feeds d).mp (List.mem_of_find?_eq_some hfound)
      have hname := List.find?_some hfound
      rw [hone d c hd hc (beq_iff_eq.mp hname)]

/-- The tally holds the connectors that executed something, with their steps. -/
theorem mem_tally (hone : OneExecutor feeds) (e : Connector × Nat) :
    e ∈ tally feeds ↔ Executed feeds e.1 ∧ e.2 = servedOf feeds e.1 := by
  unfold tally
  simp only [List.mem_filterMap, mem_ascending, Option.map_eq_some_iff]
  constructor
  · rintro ⟨name, _, c, hc, rfl⟩
    have hexecuted := (mem_executors feeds c).mp (List.mem_of_find?_eq_some hc)
    have hname := List.find?_some hc
    refine ⟨hexecuted, ?_⟩
    rw [← beq_iff_eq.mp hname, weightOf_eq_served feeds hone c hexecuted]
  · rintro ⟨hexecuted, hweight⟩
    have hmem := (mem_executors feeds e.1).mpr hexecuted
    refine ⟨e.1.name, List.mem_map_of_mem hmem, e.1, find?_executor feeds hone e.1 hexecuted, ?_⟩
    rw [weightOf_eq_served feeds hone e.1 hexecuted, ← hweight]

-- It is in the order of names.
theorem tally_ascending :
    (tally feeds).Pairwise fun d e => compare d.1.name e.1.name = .lt := by
  unfold tally
  refine (ascending_pairwise _).filterMap _ fun a b hlt d hd e he => ?_
  rcases Option.map_eq_some_iff.mp hd with ⟨c, hc, rfl⟩
  rcases Option.map_eq_some_iff.mp he with ⟨c', hc', rfl⟩
  have hname := List.find?_some hc
  have hname' := List.find?_some hc'
  rw [beq_iff_eq.mp hname, beq_iff_eq.mp hname']
  exact hlt

/-- Whether a connector that executed something could merge it. -/
def Fit (w : Workflow) (after : List Nat) (c : Connector) : Prop :=
  Executed feeds c ∧ c.supports .selectInnerJoinPartialResults = true ∧
    w.canRunAll after c = true

/-- The connector that merges a join is the foremost of those that could. -/
theorem mergeExecutor?_iff_foremost (hone : OneExecutor feeds) (w : Workflow) (join : Nat)
    (after : List Nat) (c : Connector) : mergeExecutor? w join after feeds = some c ↔
      w.MergesPartial join ∧ Foremost (Fit feeds w after) (servedOf feeds) c := by
  rw [mergeExecutor?_eq_some_iff, heaviest_iff_foremost (Fit feeds w after) (servedOf feeds)]
  · intro e
    unfold fitting Fit
    rw [List.mem_filter, mem_tally feeds hone, Bool.and_eq_true]
    tauto
  · exact (tally_ascending feeds).filter _

-- There is one if any could.
theorem exists_mergeExecutor? (hone : OneExecutor feeds) (w : Workflow) (join : Nat)
    (after : List Nat) (hpartial : w.MergesPartial join) (hfit : ∃ c, Fit feeds w after c) :
    ∃ c, mergeExecutor? w join after feeds = some c := by
  rcases hfit with ⟨c, hexecuted, hsupports, hrun⟩
  cases hbest : heaviest (fitting w after feeds) with
  | none =>
      have hmem : (c, servedOf feeds c) ∈ fitting w after feeds :=
        List.mem_filter.mpr ⟨(mem_tally feeds hone _).mpr ⟨hexecuted, rfl⟩, by
          simp [hsupports, hrun]⟩
      rw [(heaviest_eq_none_iff _).mp hbest] at hmem
      exact absurd hmem List.not_mem_nil
  | some e =>
      refine ⟨e.1, (mergeExecutor?_eq_some_iff w join after feeds e.1).mpr ⟨hpartial, ?_⟩⟩
      rw [hbest]
      rfl

/-- It does not matter in which order something arrives. -/
theorem mergeExecutor?_perm (hone : OneExecutor feeds) (others : List Feed)
    (hperm : others.Perm feeds) (w : Workflow) (join : Nat) (after : List Nat) :
    mergeExecutor? w join after others = mergeExecutor? w join after feeds := by
  have hexecuted : Executed others = Executed feeds := by
    funext c
    simp only [Executed, hperm.mem_iff]
  have hserved : servedOf others = servedOf feeds := by
    funext c
    exact ((hperm.filter _).map _).sum_nat
  have hone' : OneExecutor others := by
    unfold OneExecutor
    rw [hexecuted]
    exact hone
  refine Option.ext fun c => ?_
  rw [mergeExecutor?_iff_foremost others hone', mergeExecutor?_iff_foremost feeds hone, hserved]
  unfold Fit
  rw [hexecuted]

end Tally

/-- The steps that were executed for what a stage reads. -/
def MultiPlan.stepsOf (m : MultiPlan) : StageInput → List Nat
  | .branch i => (m.branches[i]?.map fun a => a.branch.steps).getD []
  | .stage i => (m.stages[i]?.map Stage.steps).getD []

/-- What arrives at a join whose stage is at a place. -/
def MultiPlan.arriving (w : Workflow) (m : MultiPlan) (n join : Nat) : List Feed :=
  feedsOf w m.branches (m.stages.take n) join

/-- How many steps of some inputs a connector executed. -/
def MultiPlan.servedBy (m : MultiPlan) (inputs : List StageInput) (c : Connector) : Nat :=
  ((inputs.filter fun input => m.producer? input = some c).map fun input =>
    (m.stepsOf input).length).sum

/-- A connector that could merge what a stage reads: it executed some of it, accepts partial
    results, and can run every step of the stage after the join. -/
structure CanMerge (w : Workflow) (m : MultiPlan) (stage : Stage) (c : Connector) : Prop where
  executed : ∃ input ∈ stage.inputs, m.producer? input = some c
  accepts : c.supports .selectInnerJoinPartialResults = true
  runs : ∀ v ∈ stage.steps.tail, w.canRunAt c v = true

-- What is brought to a join says in how many steps.
theorem MultiPlan.stepsOf_of_brings (m : MultiPlan) (t : Nat) (f : Feed) (h : m.Brings t f) :
    (m.stepsOf f.input).length = f.weight := by
  cases h with
  | branch i a hi =>
      show ((m.branches[i]?.map fun a => a.branch.steps).getD []).length = _
      rw [hi]
      rfl
  | stage i stage hi =>
      show ((m.stages[i]?.map Stage.steps).getD []).length = _
      rw [hi]
      rfl

section Merging

variable {s : Snapshot} {w : Workflow} {settled : List (Nat × Connector)} {m : MultiPlan}

-- What arrives at a stage tells of the inputs of the stage.
theorem Divided.arriving_spec (h : Divided s w settled m) (n : Nat) (stage : Stage)
    (hn : m.stages[n]? = some stage) (f : Feed) (hf : f ∈ m.arriving w n stage.join) :
    m.producer? f.input = f.executor ∧ (m.stepsOf f.input).length = f.weight := by
  rcases (h.mem_feeds n stage hn f).mp hf with ⟨t, _, hbrings⟩
  exact ⟨m.producer?_of_brings t f hbrings, m.stepsOf_of_brings t f hbrings⟩

theorem Divided.executed_iff (h : Divided s w settled m) (n : Nat) (stage : Stage)
    (hn : m.stages[n]? = some stage) (c : Connector) :
    (∃ input ∈ stage.inputs, m.producer? input = some c) ↔
      Executed (m.arriving w n stage.join) c := by
  rw [(h.stageOf n stage hn).2.inputs_eq]
  constructor
  · rintro ⟨input, hinput, hc⟩
    rcases List.mem_map.mp hinput with ⟨f, hf, rfl⟩
    exact ⟨f, hf, (h.arriving_spec n stage hn f hf).1.symm.trans hc⟩
  · rintro ⟨f, hf, hc⟩
    exact ⟨f.input, List.mem_map_of_mem hf, (h.arriving_spec n stage hn f hf).1.trans hc⟩

theorem Divided.servedBy_eq (h : Divided s w settled m) (n : Nat) (stage : Stage)
    (hn : m.stages[n]? = some stage) (c : Connector) :
    m.servedBy stage.inputs c = servedOf (m.arriving w n stage.join) c := by
  have hspec := h.arriving_spec n stage hn
  unfold MultiPlan.servedBy servedOf
  rw [(h.stageOf n stage hn).2.inputs_eq, List.filter_map, List.map_map]
  have hfilter : (m.arriving w n stage.join).filter
      ((fun input => decide (m.producer? input = some c)) ∘ Feed.input)
        = (m.arriving w n stage.join).filter fun f => f.executor = some c :=
    List.filter_congr fun f hf => by simp only [Function.comp_apply, (hspec f hf).1]
  show (((m.arriving w n stage.join).filter _).map _).sum = _
  rw [hfilter]
  exact congrArg List.sum (List.map_congr_left fun f hf => (hspec f (List.mem_filter.mp hf).1).2)

-- After its join a stage runs what the join drags along.
theorem Divided.steps_tail (h : Divided s w settled m) (n : Nat) (stage : Stage)
    (hn : m.stages[n]? = some stage) :
    stage.steps.tail = (w.segment (w.next? stage.join)).steps := by
  rw [(h.stageOf n stage hn).2.steps_eq]
  rfl

/-- The connectors that could merge what a stage reads are those that could merge what
    arrives there. -/
theorem Divided.canMerge_iff (h : Divided s w settled m) (n : Nat) (stage : Stage)
    (hn : m.stages[n]? = some stage) (c : Connector) :
    CanMerge w m stage c ↔ Fit (m.arriving w n stage.join) w stage.steps.tail c := by
  unfold Fit
  rw [← h.executed_iff n stage hn c, Workflow.canRunAll_iff]
  exact ⟨fun hc => ⟨hc.executed, hc.accepts, hc.runs⟩, fun ⟨he, ha, hr⟩ => ⟨he, ha, hr⟩⟩

-- All that takes part in a plan is listed.
theorem Divided.lists_producer (h : Divided s w settled m) (input : StageInput) (c : Connector)
    (hc : m.producer? input = some c) : s.Lists c := by
  have hlisted : ∀ t ∈ w.starts, ∀ f, partOf? s w t = some f → ∀ c ∈ f.connectors, s.Lists c :=
    fun t ht f hf c hc => (part_covers s w t ht f hf c hc).1
  cases input with
  | branch i =>
      rcases Option.map_eq_some_iff.mp hc with ⟨a, ha, rfl⟩
      exact h.lists_branch a (List.mem_of_getElem? ha)
  | stage i =>
      rcases Option.bind_eq_some_iff.mp hc with ⟨stage, hstage, hc⟩
      exact h.stage_holds s.Lists
        (fun t ht f hf c hc => hlisted t ht f hf c ((choose_fragment f c).mp hc).2.1)
        (fun t ht f hf c hc _ _ _ => hlisted t ht f hf c hc) i stage hstage c hc

theorem Divided.oneExecutor (h : Divided s w settled m) (hone : s.OneDefinition) (n : Nat)
    (stage : Stage) (hn : m.stages[n]? = some stage) :
    OneExecutor (m.arriving w n stage.join) := by
  intro c d hc hd
  rcases (h.executed_iff n stage hn c).mpr hc with ⟨_, _, hc⟩
  rcases (h.executed_iff n stage hn d).mpr hd with ⟨_, _, hd⟩
  exact hone c d (h.lists_producer _ c hc) (h.lists_producer _ d hd)

-- Without an owner nothing was settled for a join.
theorem Divided.executor_of_merge (h : Divided s w settled m) (hone : s.OneDefinition) (n : Nat)
    (stage : Stage) (hn : m.stages[n]? = some stage) (hnone : ¬∃ c, CanOwn s w stage.join c) :
    stage.executor = match mergeExecutor? w stage.join stage.steps.tail
        (m.arriving w n stage.join) with
      | some c => .connector c .selectInnerJoinPartialResults
      | none => .coordinator := by
  rcases h.stageOf n stage hn with ⟨hplace, hspec⟩
  have hjoin := List.mem_of_getElem? hplace
  have hunsettled : settled.lookup stage.join = none := by
    cases hsettled : settled.lookup stage.join with
    | none => rfl
    | some c =>
        rcases h.part_of_settled stage.join hjoin c hsettled with ⟨f, hf, hcf⟩
        exact absurd ⟨c, (canOwn_iff s w hone stage.join hjoin c).mpr ⟨f, hf, hcf⟩⟩ hnone
  have hnative : nativeExecutor? w settled stage.join = none := by
    unfold nativeExecutor?
    rw [hunsettled]
    rfl
  rw [hspec.executor_eq, h.steps_tail n stage hn]
  unfold executorAt
  rw [hnative]
  rfl

end Merging

/-- A join that no connector could own is merged by a connector that executed some of its
    inputs, if the join may be given partial results and one of them could merge it: by the
    one that executed most steps of the inputs, and among several by the one with the
    smallest name. Otherwise the coordinator executes the stage. The order of what arrives
    does not matter. -/
theorem merged_by_most_steps (config : PlannerConfig) (query : QueryId) (w : Workflow)
    (s : Snapshot) (hone : s.OneDefinition) (m : MultiPlan)
    (hp : planSelect config query w s = .ok (.multi m)) (n : Nat) (stage : Stage)
    (hn : m.stages[n]? = some stage) (hnone : ¬∃ c, CanOwn s w stage.join c) :
    ((w.MergesPartial stage.join ∧ ∃ c, CanMerge w m stage c) →
      ∃ c, Foremost (CanMerge w m stage) (m.servedBy stage.inputs) c ∧
        stage.executor = .connector c .selectInnerJoinPartialResults) ∧
    (¬(w.MergesPartial stage.join ∧ ∃ c, CanMerge w m stage c) →
      stage.executor = .coordinator) ∧
    ∀ feeds, feeds.Perm (m.arriving w n stage.join) →
      mergeExecutor? w stage.join stage.steps.tail feeds = stage.executor.connector? := by
  rcases divided_of_multi config query w s m hp with ⟨settled, h⟩
  have hfeeds := h.oneExecutor hone n stage hn
  have hexecutor := h.executor_of_merge hone n stage hn hnone
  have hfit : Fit (m.arriving w n stage.join) w stage.steps.tail = CanMerge w m stage :=
    funext fun c => propext (h.canMerge_iff n stage hn c).symm
  have hserved : servedOf (m.arriving w n stage.join) = m.servedBy stage.inputs :=
    funext fun c => (h.servedBy_eq n stage hn c).symm
  have hiff := mergeExecutor?_iff_foremost _ hfeeds w stage.join stage.steps.tail
  rw [hfit, hserved] at hiff
  refine ⟨?_, ?_, ?_⟩
  · rintro ⟨hpartial, hcan⟩
    rw [← hfit] at hcan
    rcases exists_mergeExecutor? _ hfeeds w stage.join stage.steps.tail hpartial hcan with
      ⟨c, hc⟩
    rw [hc] at hexecutor
    exact ⟨c, ((hiff c).mp hc).2, hexecutor⟩
  · intro hnot
    cases hmerge : mergeExecutor? w stage.join stage.steps.tail (m.arriving w n stage.join) with
    | none =>
        rw [hmerge] at hexecutor
        exact hexecutor
    | some c =>
        rcases (hiff c).mp hmerge with ⟨hpartial, hforemost⟩
        exact absurd ⟨hpartial, c, hforemost.mem⟩ hnot
  · intro feeds hperm
    rw [mergeExecutor?_perm _ hfeeds feeds hperm, hexecutor]
    cases mergeExecutor? w stage.join stage.steps.tail (m.arriving w n stage.join) with
    | none => rfl
    | some c => rfl

/-- Users are read and projected before they are joined with the orders. -/
def projectedUsers : Workflow where
  steps :=
    [.scan ⟨⟨"shop"⟩, "users"⟩ ⟨"east"⟩ [], .projection [] none,
      .scan ⟨⟨"shop"⟩, "orders"⟩ ⟨"west"⟩ [],
      .join ⟨.boolean true, .eq, .boolean true⟩ Capability.joinVariants]
  links := [⟨0, 1⟩, ⟨1, 3⟩, ⟨2, 3⟩]
  terminal := 3
  sound := (Graph.sound_iff_fault? _).mpr (by decide)
  sinks_eq := by decide

/-- The connector with the greater name merges what it has read and projected. -/
def projectedStage : Stage :=
  ⟨3, [3], [.branch 0, .branch 1], [⟨⟨"shop"⟩, "orders"⟩, ⟨⟨"shop"⟩, "users"⟩],
    .connector (.universal ⟨"b"⟩) .selectInnerJoinPartialResults⟩

def projectedPlan : MultiPlan where
  query := ⟨"q"⟩
  branches :=
    [⟨wholeBranch (eastAndWest [⟨"b"⟩] [⟨"a"⟩]) projectedUsers 0, .universal ⟨"b"⟩⟩,
      ⟨wholeBranch (eastAndWest [⟨"b"⟩] [⟨"a"⟩]) projectedUsers 2, .universal ⟨"a"⟩⟩]
  stages := [projectedStage]
  workflow := projectedUsers

/-- The connector that has read and projected the users merges them with the orders,
    although the other one has a smaller name. -/
theorem projected_merged :
    (eastAndWest [⟨"b"⟩] [⟨"a"⟩]).OneDefinition ∧
      planSelect .default ⟨"q"⟩ projectedUsers (eastAndWest [⟨"b"⟩] [⟨"a"⟩])
        = .ok (.multi projectedPlan) ∧
      (¬∃ c, CanOwn (eastAndWest [⟨"b"⟩] [⟨"a"⟩]) projectedUsers 3 c) ∧
      CanMerge projectedUsers projectedPlan projectedStage (.universal ⟨"a"⟩) ∧
      ∃ c, Foremost (CanMerge projectedUsers projectedPlan projectedStage)
          (projectedPlan.servedBy projectedStage.inputs) c ∧
        projectedStage.executor = .connector c .selectInnerJoinPartialResults := by
  have hone : (eastAndWest [⟨"b"⟩] [⟨"a"⟩]).OneDefinition := by decide
  have hp : planSelect .default ⟨"q"⟩ projectedUsers (eastAndWest [⟨"b"⟩] [⟨"a"⟩])
      = .ok (.multi projectedPlan) := rfl
  have hnone := (partOf?_eq_none_iff (eastAndWest [⟨"b"⟩] [⟨"a"⟩]) projectedUsers hone 3
    (by decide)).mp rfl
  have hother : CanMerge projectedUsers projectedPlan projectedStage (.universal ⟨"a"⟩) :=
    ⟨⟨.branch 1, List.mem_cons_of_mem _ List.mem_cons_self, rfl⟩, by decide,
      fun v hv => absurd hv List.not_mem_nil⟩
  exact ⟨hone, hp, hnone, hother, (merged_by_most_steps .default ⟨"q"⟩ projectedUsers _ hone
    projectedPlan hp 0 projectedStage rfl hnone).1 ⟨⟨_, rfl, by decide⟩, _, hother⟩⟩

end Federation
