import Federation.Proofs.Planner.Dispatch
import Federation.Proofs.Planner.JoinTree

/-!
# Local Joins

A connector that cannot take partial results from elsewhere may still join what it
read itself. A stage is executed in this way only where its join is native, and then
everything below it is native too and has come to the same name: the name that was
settled at the join is among the names of both parts that lead there, so it is found
when they take it over, and never chosen anew.

What is taken over is a name. Below a local join all branches and stages therefore
name the connector of the join, though each may have another copy of it.

## Main definitions

* `MultiPlan.producer?`: Who executed what a stage reads.
* `MultiPlan.Under`: What a stage reads, itself or through other stages.
* `Owned`: What is settled of an input below a native join.

## Theorems

* `Divided.produced`: Parts of a plan are executed by the connectors they took.
* `Divided.owned_input`, `Divided.owned_under`: What is below a native join.
* `local_join_owns`: A local join only reads what its own connector produced.
* `nested_local`: The first stage of a nested join is a local one.
-/

namespace Federation

/-- The connector that executed what a stage reads. -/
def MultiPlan.producer? (m : MultiPlan) : StageInput → Option Connector
  | .branch i => m.branches[i]?.map AssignedBranch.connector
  | .stage i => m.stages[i]?.bind fun stage => stage.executor.connector?

/-- What the stage at a place reads, itself or through the stages that it reads. -/
inductive MultiPlan.Under (m : MultiPlan) (n : Nat) : StageInput → Prop
  | input (input : StageInput) (h : m.Reads n input) : m.Under n input
  | further (i : Nat) (input : StageInput) (h : m.Under n (.stage i)) (hi : m.Reads i input) :
      m.Under n input

-- What is brought to a join says who executed it.
theorem MultiPlan.producer?_of_brings (m : MultiPlan) (t : Nat) (f : Feed) (h : m.Brings t f) :
    m.producer? f.input = f.executor := by
  cases h with
  | branch i a hi =>
      show m.branches[i]?.map AssignedBranch.connector = some a.connector
      rw [hi]
      rfl
  | stage i stage hi =>
      show (m.stages[i]?.bind fun stage => stage.executor.connector?) = _
      rw [hi]
      rfl

/-- What is settled of an input below a native join: it comes from a connector of a
    name, and if it comes from a stage then that connector was settled there. -/
def Owned (settled : List (Nat × Connector)) (m : MultiPlan) (name : ConnectorName)
    (input : StageInput) : Prop :=
  ∃ d, m.producer? input = some d ∧ d.name = name ∧ ∀ (i : Nat) (stage : Stage),
    input = .stage i → m.stages[i]? = some stage → settled.lookup stage.join = some d

section Local

variable {s : Snapshot} {w : Workflow} {settled : List (Nat × Connector)} {m : MultiPlan}

-- A native join has taken the connector that was settled for it.
theorem Divided.settled_takes (h : Divided s w settled m) (join : Nat) (hjoin : join ∈ w.joins)
    (f : Fragment) (hf : partOf? s w join = some f) :
    ∃ c, settled.lookup join = some c ∧ Takes settled f c := by
  have hspec := natives_spec s w
  have hlater : ∀ e ∈ natives s w, ∀ other, e.2.downstream = some other → e.1 < other :=
    fun e he other hd => by
      have hkey := (mem_natives s w e he).1
      rw [hspec.downstream e he] at hd
      exact (Workflow.downstream_spec w e.1 other (Graph.lt_of_mem_joins _ _ hkey) hd).2
  rw [partOf?_lookup s w join hjoin] at hf
  exact settle_takes _ settled h.settled_eq ((joins_pairwise_lt w).sublist hspec.keys) hlater
    (join, f) (mem_of_lookup _ join f hf)

-- Only native joins are settled.
theorem Divided.part_of_settled (h : Divided s w settled m) (join : Nat) (hjoin : join ∈ w.joins)
    (c : Connector) (hc : settled.lookup join = some c) :
    ∃ f, partOf? s w join = some f ∧ c ∈ f.connectors := by
  rcases settle_lookup _ settled h.settled_eq join c hc with ⟨f, hf, hcf⟩
  rw [← partOf?_lookup s w join hjoin] at hf
  exact ⟨f, hf, hcf⟩

/-- The stage of a native join is executed by the connector settled for it, which joins with
    the first alternative that it declares. -/
theorem Divided.settled_executor (h : Divided s w settled m) (stage : Stage)
    (hstage : stage ∈ m.stages) (c : Connector) (hc : settled.lookup stage.join = some c) :
    ∃ step capability, w.step? stage.join = some step ∧
      step.alternatives.find? c.supports = some capability ∧
        stage.executor = .connector c capability := by
  rcases List.mem_iff_getElem?.mp hstage with ⟨n, hn⟩
  rcases h.stageOf n stage hn with ⟨hplace, hspec⟩
  have hjoin := List.mem_of_getElem? hplace
  rcases h.part_of_settled stage.join hjoin c hc with ⟨f, hf, hcf⟩
  -- What can run the stretch of the join can run the join, so it executes it.
  have hrun := (Workflow.canRunAll_iff w _ c).mp
    (part_runs s w _ (Workflow.mem_starts_of_join w _ hjoin) f hf c hcf)
    stage.join (Workflow.mem_stretch_self w _)
  rcases nativeExecutor?_settled w settled stage.join c hc hrun with ⟨capability, hnative⟩
  rcases nativeExecutor?_spec w settled stage.join _ hnative with ⟨d, a, step, heq, _, hstep, ha⟩
  cases heq
  refine ⟨step, capability, hstep, ha, ?_⟩
  rw [hspec.executor_eq]
  unfold executorAt
  rw [hnative]

/-- A part of a plan is executed by the connector it took. -/
theorem Divided.produced (h : Divided s w settled m) (t : Nat) (g : Fragment)
    (hg : partOf? s w t = some g) (f : Feed) (hf : m.Brings t f) :
    ∃ c, f.executor = some c ∧ Takes settled g c ∧
      (t ∈ w.joins → settled.lookup t = some c) := by
  cases hf with
  | branch i a hi =>
      have hmem := List.mem_of_getElem? hi
      rcases h.branch_mem a hmem with ⟨hscan, heq⟩
      have htakes := h.takes a hmem
      rw [partOf?_scan s w _ hscan, ← heq, Option.some.injEq] at hg
      rw [hg] at htakes
      exact ⟨a.connector, rfl, htakes, fun hjoin =>
        absurd hjoin (Graph.not_mem_joins_of_mem_scans _ _ hscan)⟩
  | stage i stage hi =>
      have hjoin := List.mem_of_getElem? (h.stageOf i stage hi).1
      rcases h.settled_takes stage.join hjoin g hg with ⟨c, hc, htakes⟩
      rcases h.settled_executor stage (List.mem_of_getElem? hi) c hc with
        ⟨_, _, _, _, hexecutor⟩
      refine ⟨c, ?_, htakes, fun _ => hc⟩
      show stage.executor.connector? = some c
      rw [hexecutor]
      rfl

/-- What the stage of a native join reads comes from connectors of the name that was
    settled for the join. -/
theorem Divided.owned_input (h : Divided s w settled m) (n : Nat) (stage : Stage)
    (hn : m.stages[n]? = some stage) (c : Connector) (hc : settled.lookup stage.join = some c)
    (input : StageInput) (hinput : input ∈ stage.inputs) : Owned settled m c.name input := by
  have hjoin := List.mem_of_getElem? (h.stageOf n stage hn).1
  rcases h.part_of_settled stage.join hjoin c hc with ⟨f, hf, hcf⟩
  rcases (h.mem_inputs n stage hn input).mp hinput with ⟨t, ht, hplace⟩
  rcases part_names s w stage.join hjoin f hf c hcf t ht with ⟨g, hg, hname⟩
  rcases (Workflow.mem_feeders w _ t).mp ht with ⟨hstart, hd⟩
  rcases h.exists_brings input t hplace with ⟨feed, hbrings, rfl⟩
  rcases h.produced t g hg feed hbrings with ⟨d, hexecutor, htakes, hsettled⟩
  refine ⟨d, ?_, ?_, fun i other heq hi => ?_⟩
  · rw [m.producer?_of_brings t feed hbrings, hexecutor]
  · exact htakes.name_eq stage.join ((part_downstream s w t hstart g hg).trans hd) c hc hname
  · -- The place of the stage is that of its join.
    have hother := (h.stageOf i other hi).1
    rw [heq] at hplace
    have hsame : t = other.join := Option.some.inj (hplace.symm.trans hother)
    rw [hsame] at hsettled
    exact hsettled (List.mem_of_getElem? hother)

/-- So does everything below the stage of a native join. -/
theorem Divided.owned_under (h : Divided s w settled m) (n : Nat) (stage : Stage)
    (hn : m.stages[n]? = some stage) (c : Connector) (hc : settled.lookup stage.join = some c)
    (input : StageInput) (hunder : m.Under n input) : Owned settled m c.name input := by
  induction hunder with
  | input input hreads =>
      rcases hreads with ⟨other, hother, hinput⟩
      rw [hn, Option.some.injEq] at hother
      rw [← hother] at hinput
      exact h.owned_input n stage hn c hc input hinput
  | further i input _ hreads ih =>
      rcases ih with ⟨d, _, hname, hsettled⟩
      rcases hreads with ⟨other, hother, hinput⟩
      rw [← hname]
      exact h.owned_input i other hother d (hsettled i other rfl hother) input hinput

end Local

/-- A join that is executed with a local capability only reads what its own connector
    produced: whatever is below its stage names that connector. -/
theorem local_join_owns (config : PlannerConfig) (query : QueryId) (w : Workflow) (s : Snapshot)
    (m : MultiPlan) (hp : planSelect config query w s = .ok (.multi m)) (n : Nat) (stage : Stage)
    (hn : m.stages[n]? = some stage) (c : Connector) (capability : Capability)
    (hexecutor : stage.executor = .connector c capability)
    (hlocal : capability ≠ .selectInnerJoinPartialResults) :
    (∃ left right, stage.inputs = [left, right]) ∧
      ∀ input, m.Under n input → ∃ d, m.producer? input = some d ∧ d.name = c.name := by
  rcases divided_of_multi config query w s m hp with ⟨settled, h⟩
  refine ⟨List.length_eq_two.mp (h.inputs_length n stage hn), fun input hunder => ?_⟩
  -- Otherwise the connector would merge partial results.
  have hsettled := ((h.stageOf n stage hn).2.executor_cases c capability hexecutor).resolve_right
    fun hmerge => hlocal hmerge.1
  rcases h.owned_under n stage hn c hsettled.1 input hunder with ⟨d, hd, hname, _⟩
  exact ⟨d, hd, hname⟩

/-- The connector that two clusters share joins what it read itself. -/
theorem nested_local :
    planSelect .default ⟨"q"⟩ nestedRead sharedAndRemote = .ok (.multi nestedPlan) ∧
      Capability.selectInnerJoin ≠ .selectInnerJoinPartialResults ∧
        ∃ d, nestedPlan.producer? (.branch 1) = some d ∧ d.name = ⟨"local"⟩ := by
  have hp : planSelect .default ⟨"q"⟩ nestedRead sharedAndRemote = .ok (.multi nestedPlan) := rfl
  have hne : Capability.selectInnerJoin ≠ .selectInnerJoinPartialResults := by decide
  refine ⟨hp, hne, (local_join_owns .default ⟨"q"⟩ nestedRead sharedAndRemote nestedPlan hp 0 _ rfl
    (.joining ⟨"local"⟩ .selectInnerJoin) .selectInnerJoin rfl hne).2 _ (.input _ ⟨_, rfl, ?_⟩)⟩
  exact List.mem_cons_of_mem _ List.mem_cons_self

end Federation
