import Federation.Proofs.Planner.Division
import Federation.Proofs.Wire.Workflow
import Federation.Wire.Plan

/-!
# Reading Plans Back

A plan is sent to whoever dispatches it, who has nothing but what is written. Two things
are needed for it to arrive as it was made. Its numbers have to fit the width in which
they are read, those of steps as well as the places by which stages refer to branches
and to one another; and floating-point literals have to be finite, those of its workflow
or of the values that it writes.

The first is the planner's to see to, and it does. Steps are numbered within the bound
that the graph was examined for, and there are no more branches or stages than steps. So
a plan that was made is read back unless a literal of its statement is not finite, in
whichever of its shapes it comes.

## Main definitions

* `Plan.Numbered`: The numbers in a plan fit their widths.
* `Plan.FloatsFinite`, `Statement.FloatsFinite`: All floating-point literals are finite.

## Theorems

* `Branch.readsBack`, `Stage.readsBack`: What becomes of the parts.
* `Plan.readsBack`: A plan is read back exactly if it is numbered and its literals are
  finite.
* `planSelect_numbered`: The numbers in the plan of a read fit.
* `planned_readsBack`: What was planned is read back.
* `rated_readsBack`: A plan that is read back, and one that is not.
-/

namespace Federation

namespace Branch

/-- Whether the numbers in a branch are ones that steps can have. -/
def Numbered (b : Branch) : Prop :=
  b.initial < UInt32.size ∧ b.last < UInt32.size ∧ (∀ id ∈ b.steps, id < UInt32.size) ∧
    ∀ id, b.next = some id → id < UInt32.size

theorem readsBack : ReadsBack toJson ofJson Numbered := by
  intro b c
  have hrecord : Decoder.record ["table", "initial", "last", "steps", "connectors", "next"]
      b.toJson = .ok [some b.table.toJson, some (.nat b.initial), some (.nat b.last),
        some (.list .nat b.steps), some (.list Connector.toJson b.connectors),
        some (.option .nat b.next)] := rfl
  have hnull : ∀ n, Json.nat n ≠ .null := fun n h => by cases h
  rw [ofJson, hrecord, ok_bind]
  simp only [Decoder.stepNumber, TableName.readsBack.required_bind,
    (readsBack_nat UInt32.size).required_bind, (readsBack_nat UInt32.size).list.required_bind,
    Connector.readsBack.list.required_bind,
    (readsBack_nat UInt32.size).optional_bind hnull, pure_eq_ok, implies_true, true_and,
    Numbered, and_assoc]

end Branch

theorem AssignedBranch.readsBack : ReadsBack toJson ofJson fun a => a.branch.Numbered := by
  intro a b
  have hrecord : Decoder.record ["path", "connector"] a.toJson
      = .ok [some a.branch.toJson, some a.connector.toJson] := rfl
  rw [ofJson, hrecord, ok_bind]
  simp only [Branch.readsBack.required_bind, Connector.readsBack.required_bind, pure_eq_ok,
    true_and]

namespace StageInput

/-- The place that an input refers to. -/
def index : StageInput → Nat
  | .branch i => i
  | .stage i => i

-- Branches and stages are told apart by the case, and the place has a width.
theorem readsBack : ReadsBack toJson ofJson fun i => i.index < UInt64.size := by
  intro input other
  cases input with
  | branch i =>
      have hcase : Decoder.variant (toJson (.branch i)) = .ok ("Path", some (.nat i)) := rfl
      rw [ofJson, hcase, ok_bind]
      simp only [Decoder.count, (readsBack_nat UInt64.size).bind, pure_eq_ok, index]
  | stage i =>
      have hcase : Decoder.variant (toJson (.stage i)) = .ok ("Stage", some (.nat i)) := rfl
      rw [ofJson, hcase, ok_bind]
      simp only [Decoder.count, (readsBack_nat UInt64.size).bind, pure_eq_ok, index]

end StageInput

theorem StageExecutor.readsBack : ReadsBack toJson ofJson fun _ => True := by
  intro executor other
  cases executor with
  | connector c join =>
      have hfields : Decoder.fields ["connector", "join"]
          (.object [("connector", c.toJson), ("join", join.toJson)])
          = .ok [some c.toJson, some join.toJson] := rfl
      change connectorOfJson (.object [("connector", c.toJson), ("join", join.toJson)]) = _ ↔ _
      rw [connectorOfJson, hfields, ok_bind]
      simp only [Connector.readsBack.required_bind, Capability.readsBack.required_bind,
        pure_eq_ok, true_and]
  | coordinator =>
      rw [true_and]
      exact pure_eq_ok _ other

namespace Stage

/-- Whether the numbers in a stage fit their widths. -/
def Numbered (stage : Stage) : Prop :=
  stage.join < UInt32.size ∧ (∀ id ∈ stage.steps, id < UInt32.size) ∧
    ∀ input ∈ stage.inputs, input.index < UInt64.size

theorem readsBack : ReadsBack toJson ofJson Numbered := by
  intro stage other
  have hrecord : Decoder.record ["join", "steps", "inputs", "tables", "executor"] stage.toJson
      = .ok [some (.nat stage.join), some (.list .nat stage.steps),
        some (.list StageInput.toJson stage.inputs),
        some (.list TableName.toJson stage.tables), some stage.executor.toJson] := rfl
  rw [ofJson, hrecord, ok_bind]
  simp only [Decoder.stepNumber, (readsBack_nat UInt32.size).required_bind,
    (readsBack_nat UInt32.size).list.required_bind, StageInput.readsBack.list.required_bind,
    TableName.readsBack.list.required_bind, StageExecutor.readsBack.required_bind, pure_eq_ok,
    implies_true, true_and, Numbered, and_assoc]

end Stage

theorem Assignment.readsBack : ReadsBack toJson ofJson fun a => a.value.FloatsFinite := by
  intro a b
  have hrecord : Decoder.record ["column", "value"] a.toJson
      = .ok [some a.column.toJson, some a.value.toJson] := rfl
  rw [ofJson, hrecord, ok_bind]
  simp only [ColumnName.readsBack.required_bind, Selector.readsBack.required_bind, pure_eq_ok,
    true_and]

namespace SinglePlan

/-- Whether the numbers in a plan for one connector are ones that steps can have. -/
def Numbered (p : SinglePlan) : Prop :=
  (∀ id ∈ p.initialSteps, id < UInt32.size) ∧ p.terminal < UInt32.size ∧
    ∀ id ∈ p.steps, id < UInt32.size

/-- A plan for one connector is read back, its workflow before its steps. -/
theorem readsBack : ReadsBack toJson ofJson fun p =>
    p.Numbered ∧ p.workflow.toGraph.FloatsFinite := by
  intro p q
  have hfields : Decoder.fields
      ["query_id", "connector", "initial_steps", "terminal", "steps", "logical"] p.toJson
      = .ok [some p.query.toJson, some p.connector.toJson, some (.list .nat p.initialSteps),
        some (.nat p.terminal), some (.list .nat p.steps), some p.workflow.toJson] := rfl
  change ofMembers p.toJson = .ok q ↔ _
  rw [ofMembers, hfields, ok_bind]
  simp only [Decoder.stepNumber, Connector.readsBack.ifPresent_bind,
    (readsBack_nat UInt32.size).list.ifPresent_bind, Workflow.readsBack.ifPresent_bind,
    Name.readsBack.ifPresent_bind, (readsBack_nat UInt32.size).ifPresent_bind, Decoder.needed,
    ok_bind, pure_eq_ok, true_and, Numbered]
  constructor
  · rintro ⟨hinitial, hfinite, hsteps, hterminal, hq⟩
    exact ⟨⟨⟨hinitial, hterminal, hsteps⟩, hfinite⟩, hq⟩
  · rintro ⟨⟨⟨hinitial, hterminal, hsteps⟩, hfinite⟩, hq⟩
    exact ⟨hinitial, hfinite, hsteps, hterminal, hq⟩

end SinglePlan

namespace MultiPlan

/-- Whether the numbers in the branches and stages of a plan fit their widths. -/
def Numbered (p : MultiPlan) : Prop :=
  (∀ a ∈ p.branches, a.branch.Numbered) ∧ ∀ stage ∈ p.stages, stage.Numbered

/-- A plan in branches is read back, its workflow first. -/
theorem readsBack : ReadsBack toJson ofJson fun p =>
    p.Numbered ∧ p.workflow.toGraph.FloatsFinite := by
  intro p q
  have hfields : Decoder.fields ["query_id", "paths", "stages", "logical"] p.toJson
      = .ok [some p.query.toJson, some (.list AssignedBranch.toJson p.branches),
        some (.list Stage.toJson p.stages), some p.workflow.toJson] := rfl
  change ofMembers p.toJson = .ok q ↔ _
  rw [ofMembers, hfields, ok_bind]
  simp only [Workflow.readsBack.ifPresent_bind, AssignedBranch.readsBack.list.ifPresent_bind,
    Name.readsBack.ifPresent_bind, Stage.readsBack.list.ifPresent_bind, Decoder.needed, ok_bind,
    pure_eq_ok, true_and, Numbered]
  constructor
  · rintro ⟨hfinite, hbranches, hstages, hq⟩
    exact ⟨⟨⟨hbranches, hstages⟩, hfinite⟩, hq⟩
  · rintro ⟨⟨⟨hbranches, hstages⟩, hfinite⟩, hq⟩
    exact ⟨hfinite, hbranches, hstages, hq⟩

end MultiPlan

theorem StoragePlan.readsBack : ReadsBack toJson ofJson fun p =>
    ∀ a ∈ p.assignments, a.value.FloatsFinite := by
  intro p q
  have hrecord : Decoder.record
      ["query_id", "cluster", "table", "connector", "operation", "assignments"] p.toJson
      = .ok [some p.query.toJson, some p.cluster.toJson, some p.table.toJson,
        some p.connector.toJson, some p.operation.toJson,
        some (.list Assignment.toJson p.assignments)] := rfl
  rw [ofJson, hrecord, ok_bind]
  simp only [Name.readsBack.required_bind, TableName.readsBack.required_bind,
    Connector.readsBack.required_bind, Capability.readsBack.required_bind,
    Assignment.readsBack.list.required_bind, pure_eq_ok, true_and]

namespace Plan

/-- Whether the numbers in a plan fit their widths. A write has none. -/
def Numbered : Plan → Prop
  | .single p => p.Numbered
  | .multi p => p.Numbered
  | .storage _ => True

/-- Whether all floating-point literals in a plan are finite. -/
def FloatsFinite : Plan → Prop
  | .single p => p.workflow.toGraph.FloatsFinite
  | .multi p => p.workflow.toGraph.FloatsFinite
  | .storage p => ∀ a ∈ p.assignments, a.value.FloatsFinite

-- The case tells the shape.
theorem ofJson_single (content : Json) :
    ofJson (.case "Single" content) = (SinglePlan.ofJson content >>= fun p => .ok (.single p)) :=
  rfl

theorem ofJson_multi (content : Json) :
    ofJson (.case "Multi" content) = (MultiPlan.ofJson content >>= fun p => .ok (.multi p)) := rfl

theorem ofJson_storage (content : Json) :
    ofJson (.case "Storage" content) = (StoragePlan.ofJson content >>= fun p => .ok (.storage p)) :=
  rfl

/-- A plan is read back exactly if its numbers fit and its literals are finite. -/
theorem readsBack : ReadsBack toJson ofJson fun p => p.Numbered ∧ p.FloatsFinite := by
  intro p q
  cases p with
  | single p =>
      rw [toJson, ofJson_single, SinglePlan.readsBack.bind]
      exact and_congr_right fun _ => pure_eq_ok _ q
  | multi p =>
      rw [toJson, ofJson_multi, MultiPlan.readsBack.bind]
      exact and_congr_right fun _ => pure_eq_ok _ q
  | storage p =>
      rw [toJson, ofJson_storage, StoragePlan.readsBack.bind]
      exact and_congr (true_and _).symm.to_iff (pure_eq_ok _ q)

end Plan

section Divided

variable {s : Snapshot} {w : Workflow} {settled : List (Nat × Connector)} {m : MultiPlan}

-- The numbers in a branch are those of steps.
theorem Divided.branch_numbered (h : Divided s w settled m) (a : AssignedBranch)
    (ha : a ∈ m.branches) : a.branch.Numbered := by
  rcases h.branch_mem a ha with ⟨hscan, heq⟩
  have hlt := Graph.lt_of_mem_scans w.toGraph _ hscan
  have hnumber := w.sound.numbered.lt
  have hsteps : ∀ id ∈ w.stretch a.branch.initial, id < UInt32.size := fun id hid =>
    hnumber id (Workflow.le_of_mem_stretch w _ hlt id hid).2
  rw [heq]
  refine ⟨hnumber _ hlt, hsteps _ (Workflow.stretchEnd_mem w _ hlt), hsteps, fun id hid => ?_⟩
  have hjoin := (Workflow.downstream_spec w a.branch.initial id hlt hid).1
  exact hnumber id (Graph.lt_of_mem_joins w.toGraph id hjoin)

-- There are no more branches than steps, and no more stages.
theorem Divided.lengths_le (h : Divided s w settled m) :
    m.branches.length ≤ w.size ∧ m.stages.length ≤ w.size := by
  have hids : w.ids.length = w.size := List.length_range
  have hscans : w.scans.length ≤ w.ids.length := List.length_filter_le _ _
  have hjoins : w.joins.length ≤ w.ids.length := List.length_filter_le _ _
  have hbranches := congrArg List.length (assigned_initials s w m.branches h.branches_eq)
  have hstages := congrArg List.length h.joins_eq
  rw [List.length_map] at hbranches hstages
  omega

-- What a stage refers to has a place among the branches or among the stages.
theorem Divided.index_lt (h : Divided s w settled m) (stage : Stage) (hstage : stage ∈ m.stages)
    (input : StageInput) (hinput : input ∈ stage.inputs) : input.index < w.size := by
  rcases List.mem_iff_getElem?.mp hstage with ⟨n, hn⟩
  rw [(h.stageOf n stage hn).2.inputs_eq] at hinput
  rcases List.mem_map.mp hinput with ⟨f, hf, rfl⟩
  have hlengths := h.lengths_le
  rcases (mem_feedsOf w _ _ _ f).mp hf with ⟨i, b, hb, _, rfl⟩ | ⟨i, earlier, hearlier, _, rfl⟩
  · have hi := (List.getElem?_eq_some_iff.mp hb).1
    show i < w.size
    omega
  · have hi := (List.getElem?_eq_some_iff.mp hearlier).1
    rw [List.length_take] at hi
    show i < w.size
    omega

-- The numbers in a stage are those of steps, and places are no greater.
theorem Divided.stage_numbered (h : Divided s w settled m) (stage : Stage)
    (hstage : stage ∈ m.stages) : stage.Numbered := by
  rcases h.stage_mem stage hstage with ⟨hjoin, hsteps⟩
  have hlt := Graph.lt_of_mem_joins w.toGraph _ hjoin
  have hnumber := w.sound.numbered.lt
  refine ⟨hnumber _ hlt, fun id hid => ?_, fun input hinput => ?_⟩
  · rw [hsteps] at hid
    exact hnumber id (Workflow.le_of_mem_stretch w _ hlt id hid).2
  · have hnarrow := hnumber _ (h.index_lt stage hstage input hinput)
    exact Nat.lt_trans hnarrow (by decide)

end Divided

/-- The numbers in the plan of a read fit, and its literals are those of the read. -/
theorem planSelect_numbered (config : PlannerConfig) (query : QueryId) (w : Workflow)
    (s : Snapshot) (p : Plan) (hp : planSelect config query w s = .ok p) :
    p.Numbered ∧ (p.FloatsFinite ↔ w.toGraph.FloatsFinite) := by
  rcases Workflow.exists_root w with ⟨root, hroot⟩
  rcases (planSelect_eq_ok config query w s root hroot p).mp hp with ⟨_, hplanned⟩
  have hnumber := w.sound.numbered.lt
  cases hplanned with
  | whole f c _ _ =>
      have hinitial : ∀ id ∈ w.initialSteps, id < UInt32.size := fun id hid =>
        hnumber id (Graph.lt_of_mem_scans w.toGraph id hid)
      have hterminal : w.terminal < UInt32.size := hnumber _ (Workflow.terminal_spec w).1
      have hsteps : ∀ id ∈ w.ids, id < UInt32.size := fun id hid =>
        hnumber id (List.mem_range.mp hid)
      exact ⟨⟨hinitial, hterminal, hsteps⟩, Iff.rfl⟩
  | split _ assigned stages _ _ _ _ _ =>
      rcases divided_of_multi config query w s _ hp with ⟨_, hdivided⟩
      exact ⟨⟨hdivided.branch_numbered, hdivided.stage_numbered⟩, Iff.rfl⟩

-- The plan of a write says what is to be written.
theorem planInsert_eq_ok (query : QueryId) (i : Insertion) (s : Snapshot) (p : Plan)
    (h : planInsert query i s = .ok p) : ∃ cluster connector,
      p = .storage ⟨query, cluster, i.table, connector, i.required, i.assignments⟩ := by
  unfold planInsert at h
  rcases (bind_eq_ok _ _ _).mp h with ⟨⟨cluster, connectors⟩, _, h⟩
  rcases (bind_eq_ok _ _ _).mp h with ⟨connector, _, h⟩
  cases h
  exact ⟨cluster, connector, rfl⟩

/-- Whether all floating-point literals of a statement are finite. -/
def Statement.FloatsFinite (st : Statement) : Prop :=
  match st.body with
  | .select w => w.toGraph.FloatsFinite
  | .insert i => ∀ value ∈ i.values, value.FloatsFinite
  | .command _ => True

/-- What is planned is numbered, and its literals are those of the statement. -/
theorem plan_numbered (r : Registry) (config : PlannerConfig) (st : Statement) (p : Plan)
    (hp : (plan r config st).value = .ok p) :
    p.Numbered ∧ (p.FloatsFinite ↔ st.FloatsFinite) := by
  rcases st with ⟨query, catalog, body⟩
  cases body with
  | select w =>
      rcases (bind_eq_ok _ _ _).mp hp with ⟨s, _, hp⟩
      exact planSelect_numbered config query w s p hp
  | insert i =>
      unfold plan at hp
      simp only at hp
      cases hfault : i.fault? with
      | some fault =>
          rw [hfault] at hp
          cases hp
      | none =>
          rw [hfault] at hp
          rcases (bind_eq_ok _ _ _).mp hp with ⟨s, _, hp⟩
          rcases planInsert_eq_ok query i s p hp with ⟨cluster, connector, rfl⟩
          refine ⟨trivial, ?_⟩
          have hvalues := i.assignments_values (i.fault?_eq_none.mp hfault)
          simp only [Plan.FloatsFinite, Statement.FloatsFinite, ← hvalues, List.forall_mem_map]
  | command c => cases hp

/-- What was planned is read back as it was made if the literals of its statement are
    finite, and is not read back otherwise; so whoever reads it dispatches the same and
    explains it in the same words. -/
theorem planned_readsBack (r : Registry) (config : PlannerConfig) (st : Statement) (p : Plan)
    (hp : (plan r config st).value = .ok p) (q : Plan) :
    Plan.ofJson p.toJson = .ok q ↔
      st.FloatsFinite ∧ q = p ∧ q.text = p.text ∧ q.units = p.units := by
  rcases plan_numbered r config st p hp with ⟨hnumbered, hfinite⟩
  rw [Plan.readsBack]
  constructor
  · intro ⟨⟨_, hp⟩, hq⟩
    subst hq
    exact ⟨hfinite.mp hp, rfl, rfl, rfl⟩
  · intro ⟨hst, hq, _, _⟩
    exact ⟨⟨hnumbered, hfinite.mpr hst⟩, hq⟩

/-- Users and orders, joined where a rate is at least as high as a literal. The rate
    itself is computed from the literal, so it stands in an argument too. -/
def ratedRead (rate : Binary64) : Workflow where
  steps :=
    [.scan ⟨⟨"shop"⟩, "users"⟩ ⟨"east"⟩ [], .scan ⟨⟨"shop"⟩, "orders"⟩ ⟨"west"⟩ [],
      .join ⟨.function "rate" [.boolean true, .float rate], .ge, .float rate⟩
        Capability.joinVariants]
  links := [⟨0, 2⟩, ⟨1, 2⟩]
  terminal := 2
  sound := (Graph.sound_iff_fault? _).mpr rfl
  sinks_eq := rfl

/-- The read with such a literal, as a statement. -/
def ratedStatement (rate : Binary64) : Statement := ⟨⟨"q"⟩, ⟨"shop"⟩, .select (ratedRead rate)⟩

/-- A plan in branches is read back if the literal is one half, and is not if it is
    infinite. -/
theorem rated_readsBack :
    (∃ m, (plan (.universal fun cluster => [⟨cluster.text⟩]) .default
        (ratedStatement ⟨0x3fe0000000000000⟩)).value = .ok (.multi m) ∧
      m.stages.map Stage.inputs = [[.branch 0, .branch 1]] ∧
      Plan.ofJson (Plan.multi m).toJson = .ok (.multi m)) ∧
    ∃ m, (plan (.universal fun cluster => [⟨cluster.text⟩]) .default
        (ratedStatement ⟨0x7ff0000000000000⟩)).value = .ok (.multi m) ∧
      ∀ q, Plan.ofJson (Plan.multi m).toJson ≠ .ok q := by
  have hfinite : ∀ rate, (ratedStatement rate).FloatsFinite ↔ rate.isFinite = true := by
    intro rate
    simp [Statement.FloatsFinite, Graph.FloatsFinite, ratedStatement, ratedRead,
      Step.FloatsFinite, Relation.FloatsFinite, Selector.FloatsFinite, Selector.AllFloatsFinite]
  constructor
  · have hplan : ∃ m, (plan (.universal fun cluster => [⟨cluster.text⟩]) .default
        (ratedStatement ⟨0x3fe0000000000000⟩)).value = .ok (.multi m) ∧
        m.stages.map Stage.inputs = [[.branch 0, .branch 1]] := ⟨_, rfl, rfl⟩
    rcases hplan with ⟨m, hm, hinputs⟩
    refine ⟨m, hm, hinputs, (planned_readsBack _ _ _ _ hm _).mpr ⟨?_, rfl, rfl, rfl⟩⟩
    exact (hfinite _).mpr rfl
  · have hplan : ∃ m, (plan (.universal fun cluster => [⟨cluster.text⟩]) .default
        (ratedStatement ⟨0x7ff0000000000000⟩)).value = .ok (.multi m) := ⟨_, rfl⟩
    rcases hplan with ⟨m, hm⟩
    refine ⟨m, hm, fun q hq => ?_⟩
    have hrate := (hfinite _).mp ((planned_readsBack _ _ _ _ hm q).mp hq).1
    cases hrate

end Federation
