import Federation.Proofs.Planner.Assignment

/-!
# Stages in Order

Each join has its stage, which runs the stretch of the join on what arrives there.
The stages are computed one after the other, and each looks at those before it;
here the fold becomes a statement about places: the stage at a place is the stage
of the join at that place, given the stages at smaller places.

What arrives at a join is listed by the places of branches and stages. Since these
stand in the order of scans and joins, what is found at the listed places are the
stretches that lead to the join, in the order of `feeders`.

A connector gets to a stage in one of two ways, settled for a native join or
picked to merge partial results, and in either can run the join with the
capability that the stage names.

## Main definitions

* `Workflow.MergesPartial`: A join that may be given partial results.
* `fitting`: The connectors that could merge a join, with their steps.
* `executorAt`: Who executes the stage of a join.
* `StageOf`: What the stage of a join is, given the stages before it.
* `Feed.ofBranch`, `Feed.ofStage`: What branches and stages bring to a join.

## Theorems

* `heaviest_split`: The heaviest entry is the first of its weight.
* `mergeExecutor?_eq_some_iff`: Who merges a join.
* `stageAt_spec`: The stage of a join.
* `StageOf.executor_cases`: How a connector comes to execute a stage.
* `stageAt_ok`: With a coordinator to fall back on there always is one.
* `mergeStages_spec`: The stages of a plan, place by place.
* `mem_feedsOf`: What arrives at a join.
* `feedsOf_mapM`: What is found at the places that feed a join.
-/

namespace Federation

-- There is a heaviest entry wherever there is one.
theorem heaviest_eq_none_iff (entries : List (Connector × Nat)) :
    heaviest entries = none ↔ entries = [] := by
  cases entries with
  | nil => simp [heaviest]
  | cons first rest =>
      unfold heaviest
      cases heaviest rest with
      | none => simp
      | some best => by_cases hlt : first.2 < best.2 <;> simp [hlt]

/-- The heaviest entry is the first of its weight: those before it are lighter, and none
    after it is heavier. -/
theorem heaviest_split (entries : List (Connector × Nat)) (e : Connector × Nat)
    (h : heaviest entries = some e) : ∃ before after, entries = before ++ e :: after ∧
      (∀ d ∈ before, d.2 < e.2) ∧ ∀ d ∈ after, d.2 ≤ e.2 := by
  induction entries generalizing e with
  | nil => cases h
  | cons first rest ih =>
      unfold heaviest at h
      cases hbest : heaviest rest with
      | none =>
          rw [hbest] at h
          cases h
          rw [(heaviest_eq_none_iff rest).mp hbest]
          exact ⟨[], [], rfl, by simp, by simp⟩
      | some best =>
          rw [hbest] at h
          simp only at h
          rcases ih best hbest with ⟨before, after, hsplit, hbefore, hafter⟩
          by_cases hlt : first.2 < best.2
          · rw [if_pos hlt, Option.some.injEq] at h
            rw [← h]
            exact ⟨first :: before, after, by rw [hsplit]; rfl,
              List.forall_mem_cons.mpr ⟨hlt, hbefore⟩, hafter⟩
          · rw [if_neg hlt, Option.some.injEq] at h
            rw [← h]
            refine ⟨[], rest, rfl, by simp, fun d hd => ?_⟩
            rw [hsplit, List.mem_append, List.mem_cons] at hd
            rcases hd with hd | rfl | hd
            · have := hbefore d hd
              omega
            · omega
            · have := hafter d hd
              omega

theorem heaviest_mem (entries : List (Connector × Nat)) (e : Connector × Nat)
    (h : heaviest entries = some e) : e ∈ entries := by
  rcases heaviest_split entries e h with ⟨before, after, rfl, _⟩
  simp

-- Only connectors that executed something that arrives are in the tally.
theorem executor_of_tally (feeds : List Feed) (entry : Connector × Nat)
    (h : entry ∈ tally feeds) : ∃ f ∈ feeds, f.executor = some entry.1 := by
  unfold tally at h
  rcases List.mem_filterMap.mp h with ⟨name, _, hname⟩
  rcases Option.map_eq_some_iff.mp hname with ⟨c, hc, rfl⟩
  exact List.mem_filterMap.mp (List.mem_of_find?_eq_some hc)

/-- Whether a join may be given partial results from elsewhere. -/
def Workflow.MergesPartial (w : Workflow) (join : Nat) : Prop :=
  ∃ step, w.step? join = some step ∧ .selectInnerJoinPartialResults ∈ step.alternatives

/-- What is left of the tally for a join: connectors that accept partial results and can
    run what follows. -/
def fitting (w : Workflow) (after : List Nat) (feeds : List Feed) : List (Connector × Nat) :=
  (tally feeds).filter fun entry =>
    entry.1.supports .selectInnerJoinPartialResults && w.canRunAll after entry.1

/-- A connector that merges a join is the heaviest that is left, if the join may be given
    partial results. -/
theorem mergeExecutor?_eq_some_iff (w : Workflow) (join : Nat) (after : List Nat)
    (feeds : List Feed) (c : Connector) :
    mergeExecutor? w join after feeds = some c ↔
      w.MergesPartial join ∧ (heaviest (fitting w after feeds)).map (·.1) = some c := by
  have haccepted : (((w.step? join).map Step.alternatives).getD []).contains
      .selectInnerJoinPartialResults = true ↔ w.MergesPartial join := by
    unfold Workflow.MergesPartial
    cases w.step? join with
    | none => simp
    | some step => simp
  unfold mergeExecutor?
  by_cases h : w.MergesPartial join
  · simp only [haccepted.mpr h, if_true, h, true_and]
    rfl
  · simp only [mt haccepted.mp h, if_false, h, false_and, reduceCtorEq, Bool.false_eq_true]

-- A connector that merges a join accepts partial results where the join does, can run
-- what follows, and executed something that arrives.
theorem mergeExecutor?_spec (w : Workflow) (join : Nat) (after : List Nat) (feeds : List Feed)
    (c : Connector) (h : mergeExecutor? w join after feeds = some c) :
    w.MergesPartial join ∧ c.supports .selectInnerJoinPartialResults = true ∧
      w.canRunAll after c = true ∧ ∃ f ∈ feeds, f.executor = some c := by
  rcases (mergeExecutor?_eq_some_iff w join after feeds c).mp h with ⟨haccepted, hbest⟩
  rcases Option.map_eq_some_iff.mp hbest with ⟨entry, hentry, rfl⟩
  rcases List.mem_filter.mp (heaviest_mem _ entry hentry) with ⟨htallied, hfit⟩
  rw [Bool.and_eq_true] at hfit
  exact ⟨haccepted, hfit.1, hfit.2, executor_of_tally feeds entry htallied⟩

-- A native join is executed by the connector that was settled for it, with a
-- capability the connector would use.
theorem nativeExecutor?_spec (w : Workflow) (settled : List (Nat × Connector)) (join : Nat)
    (executor : StageExecutor) (h : nativeExecutor? w settled join = some executor) :
    ∃ c capability step, executor = .connector c capability ∧ settled.lookup join = some c ∧
      w.step? join = some step ∧ c.capabilityFor? step = some capability := by
  unfold nativeExecutor? at h
  rcases Option.bind_eq_some_iff.mp h with ⟨c, hc, h⟩
  rcases Option.bind_eq_some_iff.mp h with ⟨step, hstep, h⟩
  rcases Option.bind_eq_some_iff.mp h with ⟨capability, hcapability, h⟩
  cases h
  exact ⟨c, capability, step, rfl, hc, hstep, hcapability⟩

-- A settled connector that can run the join executes it.
theorem nativeExecutor?_settled (w : Workflow) (settled : List (Nat × Connector)) (join : Nat)
    (c : Connector) (hc : settled.lookup join = some c) (hrun : w.canRunAt c join = true) :
    ∃ capability, nativeExecutor? w settled join = some (.connector c capability) := by
  rcases (Workflow.canRunAt_iff w c join).mp hrun with ⟨step, hstep, hcan⟩
  rcases Option.isSome_iff_exists.mp hcan with ⟨capability, hcapability⟩
  refine ⟨capability, ?_⟩
  unfold nativeExecutor?
  simp only [hc, hstep, hcapability, Option.bind_eq_bind, Option.bind_some, Option.pure_def]

/-- Who executes the stage of a join, where a coordinator may. -/
def executorAt (w : Workflow) (branches : List AssignedBranch) (settled : List (Nat × Connector))
    (before : List Stage) (join : Nat) : StageExecutor :=
  match nativeExecutor? w settled join with
  | some executor => executor
  | none =>
    match mergeExecutor? w join (w.segment (w.next? join)).steps
        (feedsOf w branches before join) with
    | some c => .connector c .selectInnerJoinPartialResults
    | none => .coordinator

/-- What the stage of a join is, given the stages before it. -/
structure StageOf (w : Workflow) (branches : List AssignedBranch)
    (settled : List (Nat × Connector)) (before : List Stage) (join : Nat) (stage : Stage) :
    Prop where
  join_eq : stage.join = join
  steps_eq : stage.steps = w.stretch join
  inputs_eq : stage.inputs = (feedsOf w branches before join).map Feed.input
  tables_eq : stage.tables = ascending ((feedsOf w branches before join).flatMap Feed.tables)
  executor_eq : stage.executor = executorAt w branches settled before join

/-- The stage of a join runs its stretch on what arrives there. -/
theorem stageAt_spec (fallback : MergeFallback) (w : Workflow) (branches : List AssignedBranch)
    (settled : List (Nat × Connector)) (before : List Stage) (join : Nat) (stage : Stage)
    (h : stageAt fallback w branches settled before join = .ok stage) :
    StageOf w branches settled before join stage := by
  unfold stageAt at h
  simp only at h
  cases hnative : nativeExecutor? w settled join with
  | some executor =>
      rw [hnative] at h
      cases h
      exact ⟨rfl, rfl, rfl, rfl, by simp only [executorAt, hnative]⟩
  | none =>
      rw [hnative] at h
      simp only at h
      cases hmerge : mergeExecutor? w join (w.segment (w.next? join)).steps
          (feedsOf w branches before join) with
      | some d =>
          rw [hmerge] at h
          cases h
          exact ⟨rfl, rfl, rfl, rfl, by simp only [executorAt, hnative, hmerge]⟩
      | none =>
          rw [hmerge] at h
          cases fallback with
          | reject => cases h
          | coordinator =>
              cases h
              exact ⟨rfl, rfl, rfl, rfl, by simp only [executorAt, hnative, hmerge]⟩

/-- A connector executes a stage because it was settled for the join and uses what it
    declares first, or because it merges partial results. -/
theorem StageOf.executor_cases {w : Workflow} {branches : List AssignedBranch}
    {settled : List (Nat × Connector)} {before : List Stage} {join : Nat} {stage : Stage}
    (h : StageOf w branches settled before join stage) (c : Connector) (capability : Capability)
    (hc : stage.executor = .connector c capability) :
    (settled.lookup join = some c ∧
      ∃ step, w.step? join = some step ∧ c.capabilityFor? step = some capability) ∨
    (capability = .selectInnerJoinPartialResults ∧
      mergeExecutor? w join (w.segment (w.next? join)).steps (feedsOf w branches before join)
        = some c) := by
  rw [h.executor_eq] at hc
  unfold executorAt at hc
  split at hc
  · rename_i executor hnative
    rcases nativeExecutor?_spec w settled join executor hnative with
      ⟨d, a, step, rfl, hd, hstep, ha⟩
    cases hc
    exact Or.inl ⟨hd, step, hstep, ha⟩
  · split at hc
    · rename_i d hmerge
      cases hc
      exact Or.inr ⟨rfl, hmerge⟩
    · cases hc

-- Either way the connector can join, and can run what follows.
theorem StageOf.executor {w : Workflow} {branches : List AssignedBranch}
    {settled : List (Nat × Connector)} {before : List Stage} {join : Nat} {stage : Stage}
    (h : StageOf w branches settled before join stage) (c : Connector) (capability : Capability)
    (hc : stage.executor = .connector c capability) :
    (∃ step, w.step? join = some step ∧ capability ∈ step.alternatives) ∧
      c.supports capability = true ∧
        (settled.lookup join = some c ∨ w.canRunAll (w.segment (w.next? join)).steps c = true) := by
  rcases h.executor_cases c capability hc with ⟨hd, step, hstep, ha⟩ | ⟨rfl, hmerge⟩
  · rcases capabilityFor?_spec c step capability ha with ⟨hsupports, hmem⟩
    exact ⟨⟨step, hstep, hmem⟩, hsupports, Or.inl hd⟩
  · rcases mergeExecutor?_spec w join _ _ c hmerge with ⟨hstep, hsupports, hrun, _⟩
    exact ⟨hstep, hsupports, Or.inr hrun⟩

/-- With a coordinator to fall back on every join has a stage. -/
theorem stageAt_ok (w : Workflow) (branches : List AssignedBranch)
    (settled : List (Nat × Connector)) (before : List Stage) (join : Nat) :
    ∃ stage, stageAt .coordinator w branches settled before join = .ok stage := by
  unfold stageAt
  simp only
  cases nativeExecutor? w settled join with
  | some executor => exact ⟨_, rfl⟩
  | none =>
      cases mergeExecutor? w join (w.segment (w.next? join)).steps
          (feedsOf w branches before join) with
      | some c => exact ⟨_, rfl⟩
      | none => exact ⟨_, rfl⟩

/-- The stages stand at the places of their joins, each computed from those before
    it. -/
theorem mergeStages_spec (fallback : MergeFallback) (w : Workflow)
    (branches : List AssignedBranch) (settled : List (Nat × Connector)) (stages : List Stage)
    (h : mergeStages fallback w branches settled = .ok stages) :
    stages.map Stage.join = w.joins ∧ ∀ i stage, stages[i]? = some stage →
      w.joins[i]? = some stage.join ∧
        StageOf w branches settled (stages.take i) stage.join stage := by
  rcases (foldlM_snoc_eq_ok _ _ _ _).mp h with ⟨_, rfl, hlen, hall⟩
  have hplace : ∀ i stage, stages[i]? = some stage → w.joins[i]? = some stage.join ∧
      StageOf w branches settled (stages.take i) stage.join stage := by
    intro i stage hstage
    have hi := (List.getElem?_eq_some_iff.mp hstage).1
    rw [hlen] at hi
    have hjoin := List.getElem?_eq_getElem hi
    have hspec := stageAt_spec fallback w branches settled _ _ stage (hall i _ stage hjoin hstage)
    rw [List.nil_append] at hspec
    rw [hjoin, hspec.join_eq]
    exact ⟨rfl, hspec⟩
  refine ⟨List.ext_getElem? fun i => ?_, hplace⟩
  rw [List.getElem?_map]
  cases hstage : stages[i]? with
  | some stage => exact (hplace i stage hstage).1.symm
  | none =>
      have hi := List.getElem?_eq_none_iff.mp hstage
      exact (List.getElem?_eq_none_iff.mpr (by omega)).symm

-- With a coordinator to fall back on there always are stages.
theorem mergeStages_ok (w : Workflow) (branches : List AssignedBranch)
    (settled : List (Nat × Connector)) :
    ∃ stages, mergeStages .coordinator w branches settled = .ok stages := by
  unfold mergeStages
  suffices h : ∀ (joins : List Nat) (before : List Stage), ∃ stages,
      joins.foldlM
        (fun stages join => do
          return stages ++ [← stageAt .coordinator w branches settled stages join])
        before = .ok stages from h w.joins []
  intro joins
  induction joins with
  | nil => intro before; exact ⟨before, rfl⟩
  | cons join rest ih =>
      intro before
      rcases stageAt_ok w branches settled before join with ⟨stage, hstage⟩
      rcases ih (before ++ [stage]) with ⟨stages, hstages⟩
      refine ⟨stages, ?_⟩
      rw [List.foldlM_cons, hstage]
      exact hstages

-- What is listed by places stands at these places.
theorem mem_places {β : Type} (l : List β) (p : β → Prop) [DecidablePred p]
    (feed : β → Nat → Feed) (f : Feed) :
    f ∈ (l.zipIdx.filterMap fun e => if p e.1 then some (feed e.1 e.2) else none) ↔
      ∃ i b, l[i]? = some b ∧ p b ∧ f = feed b i := by
  rw [List.mem_filterMap]
  constructor
  · rintro ⟨⟨b, i⟩, he, h⟩
    by_cases hp : p b
    · simp only [hp, if_true, Option.some.injEq] at h
      exact ⟨i, b, List.mem_zipIdx_iff_getElem?.mp he, hp, h.symm⟩
    · simp only [hp, if_false, reduceCtorEq] at h
  · rintro ⟨i, b, hb, hp, rfl⟩
    exact ⟨(b, i), List.mem_zipIdx_iff_getElem?.mpr hb, by simp only [hp, if_true]⟩

/-- What a branch brings to a join, given its place. -/
def Feed.ofBranch (b : AssignedBranch) (i : Nat) : Feed :=
  ⟨.branch i, [b.branch.table], some b.connector, b.branch.steps.length⟩

/-- What a stage brings to a later join, given its place. -/
def Feed.ofStage (stage : Stage) (i : Nat) : Feed :=
  ⟨.stage i, stage.tables, stage.executor.connector?, stage.steps.length⟩

/-- What arrives at a join comes from a branch or an earlier stage that leads
    there. -/
theorem mem_feedsOf (w : Workflow) (branches : List AssignedBranch) (before : List Stage)
    (join : Nat) (f : Feed) :
    f ∈ feedsOf w branches before join ↔
      (∃ i b, branches[i]? = some b ∧ b.branch.next = some join ∧ f = Feed.ofBranch b i) ∨
      ∃ i stage, before[i]? = some stage ∧ w.downstream stage.join = some join ∧
        f = Feed.ofStage stage i := by
  unfold feedsOf
  rw [List.mem_append]
  exact or_congr
    (mem_places branches (fun b => b.branch.next = some join) Feed.ofBranch f)
    (mem_places before (fun stage => w.downstream stage.join = some join) Feed.ofStage f)

-- Looking up what was listed by places finds what stands at those places.
theorem mapM_places {β : Type} {γ : Type*} (l : List β) (n : Nat) (p : β → Prop)
    [DecidablePred p] (feed : β → Nat → Feed) (look : StageInput → Option γ) (value : β → γ)
    (h : ∀ i b, l[i]? = some b → look (feed b (n + i)).input = some (value b)) :
    (((l.zipIdx n).filterMap fun e => if p e.1 then some (feed e.1 e.2) else none).map
        Feed.input).mapM look = some ((l.filter fun b => p b).map value) := by
  induction l generalizing n with
  | nil => rfl
  | cons b rest ih =>
      have hrest := ih (n + 1) fun i c hc => by
        rw [Nat.add_assoc, Nat.add_comm 1 i]
        exact h (i + 1) c hc
      rw [List.zipIdx_cons, List.filterMap_cons, List.filter_cons]
      by_cases hp : p b
      · have hfirst := h 0 b rfl
        rw [Nat.add_zero] at hfirst
        simp only [hp, if_true, decide_true]
        rw [List.map_cons, List.mapM_cons, hfirst, hrest]
        rfl
      · simp only [hp, if_false, decide_false, Bool.false_eq_true]
        exact hrest

-- Only earlier joins lead to a join.
theorem filter_take_joins (w : Workflow) (n join : Nat) (hn : w.joins[n]? = some join) :
    (w.joins.take n).filter (fun id => w.downstream id = some join)
      = w.joins.filter fun id => w.downstream id = some join := by
  rcases List.getElem?_eq_some_iff.mp hn with ⟨hlt, hget⟩
  have hdrop : (w.joins.drop n).filter (fun id => w.downstream id = some join) = [] := by
    rw [List.filter_eq_nil_iff]
    intro t ht hdown
    rw [decide_eq_true_eq] at hdown
    have hjoin := (List.drop_sublist n w.joins).subset ht
    have hbefore := (Workflow.downstream_spec w t join
      (Graph.lt_of_mem_joins _ t hjoin) hdown).2
    have hlater : join ≤ t := by
      have hpair := (joins_pairwise_lt w).sublist (List.drop_sublist n w.joins)
      rw [List.drop_eq_getElem_cons hlt, hget] at hpair ht
      rcases List.mem_cons.mp ht with heq | ht
      · omega
      · exact Nat.le_of_lt ((List.pairwise_cons.mp hpair).1 t ht)
    omega
  have hsplit := List.take_append_drop n w.joins
  rw [← List.append_nil (List.filter _ (w.joins.take n)), ← hdrop, ← List.filter_append, hsplit]

/-- What is found at the places that feed a join are the stretches that lead to it,
    if at the place of each scan and each earlier join its stretch is found. -/
theorem feedsOf_mapM {γ : Type*} (s : Snapshot) (w : Workflow) (branches : List AssignedBranch)
    (before : List Stage) (n join : Nat) (hn : w.joins[n]? = some join)
    (hbranches : branches.map AssignedBranch.branch = w.scans.map (wholeBranch s w))
    (hbefore : before.map Stage.join = w.joins.take n) (look : StageInput → Option γ)
    (value : Nat → γ)
    (hscan : ∀ i t, w.scans[i]? = some t → look (.branch i) = some (value t))
    (hstage : ∀ i t, (w.joins.take n)[i]? = some t → look (.stage i) = some (value t)) :
    ((feedsOf w branches before join).map Feed.input).mapM look
      = some ((w.feeders join).map value) := by
  -- Branches start at the scans and lead where these do.
  have hinitial := assigned_initials s w branches hbranches
  have hnext : ∀ b ∈ branches, b.branch.next = w.downstream b.branch.initial := fun b hb => by
    rcases mem_assigned s w branches hbranches b hb with ⟨t, _, ht⟩
    rw [ht]
    rfl
  have hfromBranches := mapM_places branches 0 (fun b => b.branch.next = some join)
    Feed.ofBranch look (fun b => value b.branch.initial) fun i b hb => by
      rw [Nat.zero_add]
      refine hscan i _ ?_
      rw [← hinitial, List.getElem?_map, hb]
      rfl
  have hfromStages := mapM_places before 0 (fun stage => w.downstream stage.join = some join)
    Feed.ofStage look (fun stage => value stage.join) fun i stage hst => by
      rw [Nat.zero_add]
      refine hstage i _ ?_
      rw [← hbefore, List.getElem?_map, hst]
      rfl
  have hscans : (branches.filter fun b => b.branch.next = some join).map
      (fun b => value b.branch.initial)
      = (w.scans.filter fun t => w.downstream t = some join).map value := by
    rw [← hinitial, List.filter_map, List.map_map]
    refine congrArg _ (List.filter_congr fun b hb => ?_)
    rw [hnext b hb]
    rfl
  have hjoins : (before.filter fun st => w.downstream st.join = some join).map
      (fun st => value st.join)
      = (w.joins.filter fun t => w.downstream t = some join).map value := by
    rw [← filter_take_joins w n join hn, ← hbefore, List.filter_map, List.map_map]
    rfl
  unfold feedsOf Workflow.feeders Workflow.starts
  rw [List.map_append, List.mapM_append, List.filter_append, List.map_append, ← hscans, ← hjoins]
  -- Branches are looked up first, then stages.
  exact congrArg₂ (fun (a b : Option (List γ)) => return (← a) ++ (← b)) hfromBranches hfromStages

end Federation
