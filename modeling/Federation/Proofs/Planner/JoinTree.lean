import Federation.Proofs.Planner.Division

/-!
# Stages Form the Tree of Joins

The stages of a plan are its joins once more, wired by places. What a stage reads
is listed by the places of branches and of earlier stages; taken back to the scans
and joins that stand there, these are the two stretches that lead to the join of
the stage. So a branch or stage is read by the stage of the join that its stretch
leads to, which is one stage for all of them but the last.

Nothing is ever missing at a stage. A stretch leads to a join with a greater
number than its start, so whatever feeds a stage has been computed before it.

The tables of a stage are collected from what it reads. They turn out to be those
of the scans that lead to its join in the graph, link by link.

## Main definitions

* `Workflow.startAt?`: The scan or join at the place of an input.
* `StageInput.Before`: Branches before stages, each by their places.
* `MultiPlan.Reads`: The stage at a place has an input.
* `MultiPlan.lastStep?`: The last step that is executed for an input.
* `MultiPlan.Brings`: What stands for a scan or join in a plan.
* `IsWired`: What the stage at a place reads.
* `IsJoinTree`: Stages are wired as the joins are.

## Theorems

* `feedsOf_ordered`: Inputs are listed in order.
* `mem_inputs`: What a stage reads.
* `read_once`: All but the last are read by one stage.
* `mem_stage_tables`: The tables of a stage are those of the scans that feed it.
* `stages_joinTree`: The stages of a plan form the tree of joins.
* `nested_tree`: The second stage of a nested join.
-/

namespace Federation

/-- The scan or join at the place of an input. -/
def Workflow.startAt? (w : Workflow) : StageInput → Option Nat
  | .branch i => w.scans[i]?
  | .stage i => w.joins[i]?

/-- Branches come before stages, and each of both by their places. -/
def StageInput.Before : StageInput → StageInput → Prop
  | .branch i, .branch j => i < j
  | .branch _, .stage _ => True
  | .stage i, .stage j => i < j
  | .stage _, .branch _ => False

/-- Whether the stage at a place has an input. -/
def MultiPlan.Reads (m : MultiPlan) (n : Nat) (input : StageInput) : Prop :=
  ∃ stage, m.stages[n]? = some stage ∧ input ∈ stage.inputs

/-- The last step that is executed for an input. -/
def MultiPlan.lastStep? (m : MultiPlan) : StageInput → Option Nat
  | .branch i => m.branches[i]?.bind fun b => b.branch.steps.getLast?
  | .stage i => m.stages[i]?.bind fun stage => stage.steps.getLast?

-- What is listed by places is in the order of the places.
theorem places_pairwise {β : Type} (l : List β) (p : β → Prop) [DecidablePred p]
    (feed : β → Nat → Feed)
    (h : ∀ b c i j, i < j → (feed b i).input.Before (feed c j).input) :
    ((l.zipIdx.filterMap fun e => if p e.1 then some (feed e.1 e.2) else none).map
      Feed.input).Pairwise StageInput.Before := by
  have hplaces : l.zipIdx.Pairwise fun d e => d.2 < e.2 := by
    rw [← List.pairwise_map (f := Prod.snd), List.zipIdx_map_snd]
    exact List.pairwise_lt_range'
  rw [List.pairwise_map]
  refine hplaces.filterMap _ fun d e hlt f hf g hg => ?_
  split at hf
  · split at hg
    · cases hf
      cases hg
      exact h d.1 e.1 d.2 e.2 hlt
    · cases hg
  · cases hf

/-- Inputs are listed in order. -/
theorem feedsOf_ordered (w : Workflow) (branches : List AssignedBranch) (before : List Stage)
    (join : Nat) : ((feedsOf w branches before join).map Feed.input).Pairwise
      StageInput.Before := by
  unfold feedsOf
  rw [List.map_append, List.pairwise_append]
  refine ⟨places_pairwise branches (fun b => b.branch.next = some join) Feed.ofBranch
      fun _ _ _ _ hlt => hlt,
    places_pairwise before (fun stage => w.downstream stage.join = some join) Feed.ofStage
      fun _ _ _ _ hlt => hlt,
    fun a ha b hb => ?_⟩
  rcases List.mem_map.mp ha with ⟨f, hf, rfl⟩
  rcases List.mem_map.mp hb with ⟨g, hg, rfl⟩
  rcases (mem_places branches (fun b => b.branch.next = some join) Feed.ofBranch f).mp hf with
    ⟨i, c, _, _, rfl⟩
  rcases (mem_places before (fun stage => w.downstream stage.join = some join) Feed.ofStage
    g).mp hg with ⟨j, stage, _, _, rfl⟩
  trivial

-- Joins stand in the order of their numbers.
theorem joins_place_lt (w : Workflow) (i n t join : Nat) (hi : w.joins[i]? = some t)
    (hn : w.joins[n]? = some join) (hlt : t < join) : i < n := by
  rcases List.getElem?_eq_some_iff.mp hi with ⟨hil, rfl⟩
  rcases List.getElem?_eq_some_iff.mp hn with ⟨hnl, rfl⟩
  by_contra hge
  rcases Nat.lt_or_eq_of_le (Nat.not_lt.mp hge) with hlate | rfl
  · have := List.pairwise_iff_getElem.mp (joins_pairwise_lt w) n i hnl hil hlate
    omega
  · omega

/-- What a plan brings to the join that a scan or join leads to, by the branch or the
    stage that stands for it. -/
inductive MultiPlan.Brings (m : MultiPlan) : Nat → Feed → Prop
  | branch (i : Nat) (a : AssignedBranch) (hi : m.branches[i]? = some a) :
      m.Brings a.branch.initial (Feed.ofBranch a i)
  | stage (i : Nat) (stage : Stage) (hi : m.stages[i]? = some stage) :
      m.Brings stage.join (Feed.ofStage stage i)

section Places

variable {s : Snapshot} {w : Workflow} {settled : List (Nat × Connector)} {m : MultiPlan}

-- A branch stands at the place of its scan.
theorem Divided.place_of_branch (h : Divided s w settled m) (i : Nat) (a : AssignedBranch)
    (hi : m.branches[i]? = some a) :
    w.scans[i]? = some a.branch.initial ∧ a.branch = wholeBranch s w a.branch.initial := by
  refine ⟨?_, (h.branch_mem a (List.mem_of_getElem? hi)).2⟩
  rw [← assigned_initials s w m.branches h.branches_eq, List.getElem?_map, hi]
  rfl

-- Every scan has its branch and every join its stage.
theorem Divided.exists_brings (h : Divided s w settled m) (input : StageInput) (t : Nat)
    (ht : w.startAt? input = some t) : ∃ f, m.Brings t f ∧ f.input = input := by
  cases input with
  | branch i =>
      have hmap : (m.branches.map fun a => a.branch.initial)[i]? = some t := by
        rw [assigned_initials s w m.branches h.branches_eq]
        exact ht
      rw [List.getElem?_map] at hmap
      rcases Option.map_eq_some_iff.mp hmap with ⟨a, ha, rfl⟩
      exact ⟨_, .branch i a ha, rfl⟩
  | stage i =>
      have hmap : (m.stages.map Stage.join)[i]? = some t := by
        rw [h.joins_eq]
        exact ht
      rw [List.getElem?_map] at hmap
      rcases Option.map_eq_some_iff.mp hmap with ⟨stage, hstage, rfl⟩
      exact ⟨_, .stage i stage hstage, rfl⟩

-- Every start is at some place.
theorem exists_startAt (w : Workflow) (t : Nat) (ht : t ∈ w.starts) :
    ∃ input, w.startAt? input = some t := by
  rcases (Workflow.mem_starts w t).mp ht with hscan | hjoin
  · rcases List.mem_iff_getElem?.mp hscan with ⟨i, hi⟩
    exact ⟨.branch i, hi⟩
  · rcases List.mem_iff_getElem?.mp hjoin with ⟨i, hi⟩
    exact ⟨.stage i, hi⟩

-- What is brought is found at the place of its start.
theorem Divided.startAt_of_brings (h : Divided s w settled m) (t : Nat) (f : Feed)
    (hf : m.Brings t f) : w.startAt? f.input = some t := by
  cases hf with
  | branch i a hi => exact (h.place_of_branch i a hi).1
  | stage i stage hi => exact (h.stageOf i stage hi).1

/-- What arrives at the join of a stage is what the stretches bring that lead there. -/
theorem Divided.mem_feeds (h : Divided s w settled m) (n : Nat) (stage : Stage)
    (hn : m.stages[n]? = some stage) (f : Feed) :
    f ∈ feedsOf w m.branches (m.stages.take n) stage.join ↔
      ∃ t ∈ w.feeders stage.join, m.Brings t f := by
  have hjoin := (h.stageOf n stage hn).1
  rw [mem_feedsOf]
  constructor
  · rintro (⟨i, a, hi, hnext, rfl⟩ | ⟨i, other, hi, hd, rfl⟩)
    · rcases h.place_of_branch i a hi with ⟨hplace, heq⟩
      rw [heq] at hnext
      exact ⟨_, (Workflow.mem_feeders w _ _).mpr ⟨Workflow.mem_starts_of_scan w _
        (List.mem_of_getElem? hplace), hnext⟩, .branch i a hi⟩
    · rw [List.getElem?_take, Option.ite_none_right_eq_some] at hi
      exact ⟨_, (Workflow.mem_feeders w _ _).mpr ⟨Workflow.mem_starts_of_join w _
        (List.mem_of_getElem? (h.stageOf i other hi.2).1), hd⟩, .stage i other hi.2⟩
  · rintro ⟨t, ht, hf⟩
    have hd := ((Workflow.mem_feeders w _ t).mp ht).2
    cases hf with
    | branch i a hi =>
        refine Or.inl ⟨i, a, hi, ?_, rfl⟩
        rw [(h.place_of_branch i a hi).2]
        exact hd
    | stage i other hi =>
        -- A join leads to a greater number, so its stage is an earlier one.
        have hlt := joins_place_lt w i n _ _ (h.stageOf i other hi).1 hjoin
          (Workflow.lt_of_mem_feeders w _ _ ht)
        refine Or.inr ⟨i, other, ?_, hd, rfl⟩
        rw [List.getElem?_take, if_pos hlt]
        exact hi

/-- A stage reads whatever leads to its join. -/
theorem Divided.mem_inputs (h : Divided s w settled m) (n : Nat) (stage : Stage)
    (hn : m.stages[n]? = some stage) (input : StageInput) :
    input ∈ stage.inputs ↔ ∃ t ∈ w.feeders stage.join, w.startAt? input = some t := by
  rw [(h.stageOf n stage hn).2.inputs_eq, List.mem_map]
  constructor
  · rintro ⟨f, hf, rfl⟩
    rcases (h.mem_feeds n stage hn f).mp hf with ⟨t, ht, hbrings⟩
    exact ⟨t, ht, h.startAt_of_brings t f hbrings⟩
  · rintro ⟨t, ht, hinput⟩
    rcases h.exists_brings input t hinput with ⟨f, hf, rfl⟩
    exact ⟨f, (h.mem_feeds n stage hn f).mpr ⟨t, ht, hf⟩, rfl⟩

/-- What is found for the inputs of a stage is what is found for the stretches that
    lead to its join. -/
theorem Divided.inputs_mapM {γ : Type*} (h : Divided s w settled m) (n : Nat) (stage : Stage)
    (hn : m.stages[n]? = some stage) (look : StageInput → Option γ) (value : Nat → γ)
    (hvalue : ∀ input t, w.startAt? input = some t → look input = some (value t)) :
    stage.inputs.mapM look = some ((w.feeders stage.join).map value) := by
  rcases h.stageOf n stage hn with ⟨hjoin, hspec⟩
  rw [hspec.inputs_eq]
  refine feedsOf_mapM s w m.branches (m.stages.take n) n stage.join hjoin h.branches_eq
    (by rw [← h.joins_eq, List.map_take]) look value (fun i t ht => hvalue (.branch i) t ht)
    (fun i t ht => hvalue (.stage i) t ?_)
  rw [List.getElem?_take] at ht
  exact (Option.ite_none_right_eq_some.mp ht).2

-- The last step that is executed for a start is the end of its stretch.
theorem Divided.lastStep?_eq (h : Divided s w settled m) (input : StageInput) (t : Nat)
    (ht : w.startAt? input = some t) : m.lastStep? input = some (w.stretchEnd t) := by
  rcases h.exists_brings input t ht with ⟨f, hf, rfl⟩
  cases hf with
  | branch i a hi =>
      show (m.branches[i]?.bind fun b => b.branch.steps.getLast?) = _
      rw [hi, Option.bind_some, (h.place_of_branch i a hi).2]
      exact Workflow.stretch_getLast? w _
  | stage i stage hi =>
      show (m.stages[i]?.bind fun stage => stage.steps.getLast?) = _
      rw [hi, Option.bind_some, (h.stageOf i stage hi).2.steps_eq]
      exact Workflow.stretch_getLast? w _

/-- Whatever does not end the workflow is read by one stage. -/
theorem Divided.read_once (h : Divided s w settled m) (root : Nat) (hroot : w.IsRoot root)
    (input : StageInput) (t : Nat) (ht : w.startAt? input = some t) (hstart : t ∈ w.starts)
    (hne : t ≠ root) :
    ∃! n, m.Reads n input := by
  cases hd : w.downstream t with
  | none => exact absurd ((hroot.downstream_eq_none t hstart).mp hd) hne
  | some join =>
      have hjoin := (Workflow.downstream_spec w t join (Workflow.starts_lt w t hstart) hd).1
      rcases List.mem_iff_getElem?.mp hjoin with ⟨n, hn⟩
      rcases h.exists_brings (.stage n) join hn with ⟨_, hf, hinput⟩
      cases hf with
      | branch _ _ _ => cases hinput
      | stage i stage hi =>
          cases hinput
          have hfeeder := (Workflow.mem_feeders w _ t).mpr ⟨hstart, hd⟩
          refine ⟨n, ⟨stage, hi, (h.mem_inputs n stage hi input).mpr ⟨t, hfeeder, ht⟩⟩, ?_⟩
          rintro k ⟨other, hother, hmem⟩
          -- A stage that reads it is that of the same join.
          rcases (h.mem_inputs k other hother input).mp hmem with ⟨u, hu, hinput⟩
          rw [ht, Option.some.injEq] at hinput
          have hdu := ((Workflow.mem_feeders w _ u).mp hu).2
          rw [← hinput, hd, Option.some.injEq] at hdu
          have hk := (h.stageOf k other hother).1
          rw [← hdu] at hk
          have hlen := (List.getElem?_eq_some_iff.mp hk).1
          exact (List.getElem?_inj hlen ((Graph.ids_nodup _).filter _)).mp (hk.trans hn.symm)

/-- The tables of a stage are those of the scans that feed its join. -/
theorem Divided.mem_stage_tables (h : Divided s w settled m) (n : Nat) (stage : Stage)
    (hn : m.stages[n]? = some stage) (table : TableName) :
    table ∈ stage.tables ↔ ∃ t ∈ w.scans, w.tableAt t = table ∧ w.Feeds t stage.join := by
  induction n using Nat.strongRecOn generalizing stage with
  | _ n ih =>
    rcases h.stageOf n stage hn with ⟨hjoin, hspec⟩
    have hbefore : ∀ (i : Nat) (other : Stage), m.stages[i]? = some other →
        other.join ∈ w.feeders stage.join → i < n := fun i other hi hmem =>
      joins_place_lt w i n _ _ (h.stageOf i other hi).1 hjoin
        (Workflow.lt_of_mem_feeders w _ _ hmem)
    rw [hspec.tables_eq, mem_ascending, List.mem_flatMap]
    simp only [h.mem_feeds n stage hn]
    constructor
    · rintro ⟨f, ⟨t, ht, hf⟩, htable⟩
      have hd := ((Workflow.mem_feeders w _ t).mp ht).2
      cases hf with
      | branch i a hi =>
          rcases h.place_of_branch i a hi with ⟨hplace, heq⟩
          refine ⟨_, List.mem_of_getElem? hplace, ?_, Relation.ReflTransGen.single hd⟩
          rw [List.mem_singleton.mp htable, heq]
          rfl
      | stage i other hi =>
          rcases (ih i (hbefore i other hi ht) other hi).mp htable with ⟨u, hu, heq, hfeeds⟩
          exact ⟨u, hu, heq, hfeeds.tail hd⟩
    · rintro ⟨t, ht, rfl, hfeeds⟩
      have hstart := Workflow.mem_starts_of_scan w t ht
      rcases Workflow.feeds_cases w t stage.join hstart hfeeds with rfl | ⟨u, hu, hfeeds⟩
      · exact absurd (List.mem_of_getElem? hjoin) (Graph.not_mem_joins_of_mem_scans _ _ ht)
      · rcases exists_startAt w u ((Workflow.mem_feeders w _ u).mp hu).1 with ⟨input, hinput⟩
        rcases h.exists_brings input u hinput with ⟨f, hf, _⟩
        refine ⟨f, ⟨u, hu, hf⟩, ?_⟩
        cases hf with
        | branch i a hi =>
            -- The scan leads here itself, and its branch brings its table.
            rcases h.place_of_branch i a hi with ⟨hplace, heq⟩
            rw [Workflow.feeds_scan w t _ hstart (List.mem_of_getElem? hplace) hfeeds]
            exact List.mem_singleton.mpr (congrArg Branch.table heq).symm
        | stage i other hi =>
            exact (ih i (hbefore i other hi hu) other hi).mpr ⟨t, ht, rfl, hfeeds⟩

end Places

/-- What the stage at a place reads: what leads to its join, in order and from places
    before its own. -/
structure IsWired (w : Workflow) (m : MultiPlan) (n : Nat) (stage : Stage) : Prop where
  two_inputs : stage.inputs.length = 2
  ordered : stage.inputs.Pairwise StageInput.Before
  inputs_end : ∃ ends, stage.inputs.mapM m.lastStep? = some ends ∧
    ends.Perm (w.inputs stage.join)
  earlier : ∀ i, .stage i ∈ stage.inputs → i < n
  tables_ascending : Ascending stage.tables
  mem_tables : ∀ table, table ∈ stage.tables ↔
    ∃ t cluster columns, w.step? t = some (.scan table cluster columns) ∧ w.Leads t stage.join

/-- Stages are wired as the joins are: each reads what leads to its join, and all but the
    last are read once. -/
structure IsJoinTree (w : Workflow) (m : MultiPlan) : Prop where
  wired : ∀ n stage, m.stages[n]? = some stage → IsWired w m n stage
  branch_once : ∀ i < m.branches.length, ∃! n, m.Reads n (.branch i)
  stage_once : ∀ i, i + 1 < m.stages.length → ∃! n, m.Reads n (.stage i)
  terminal_last : ∃ stage, m.stages.getLast? = some stage ∧
    stage.steps.getLast? = some w.terminal

section Tree

variable {s : Snapshot} {w : Workflow} {settled : List (Nat × Connector)} {m : MultiPlan}

-- There are as many inputs as stretches that lead to the join.
theorem Divided.inputs_length (h : Divided s w settled m) (n : Nat) (stage : Stage)
    (hn : m.stages[n]? = some stage) : stage.inputs.length = 2 := by
  rcases Workflow.feeders_pair w stage.join (List.mem_of_getElem? (h.stageOf n stage hn).1) with
    ⟨left, right, hpair⟩
  have hends := h.inputs_mapM n stage hn m.lastStep? w.stretchEnd h.lastStep?_eq
  rw [← mapM_some_length _ _ _ hends, hpair]
  rfl

-- The last stage is that of the join that ends the workflow.
theorem Divided.last_stage (h : Divided s w settled m) (root : Nat) (hroot : w.IsRoot root) :
    ∃ stage, m.stages.getLast? = some stage ∧ stage.join = root := by
  have hlast := joins_getLast? w root hroot (h.root_mem_joins root hroot)
  rw [← h.joins_eq, List.getLast?_map] at hlast
  exact Option.map_eq_some_iff.mp hlast

-- Whatever stands before the last join does not end the workflow.
theorem Divided.ne_root (h : Divided s w settled m) (root : Nat) (hroot : w.IsRoot root)
    (i t : Nat) (hi : i + 1 < m.stages.length) (ht : w.joins[i]? = some t) : t ≠ root := by
  rintro rfl
  have hlen := congrArg List.length h.joins_eq
  rw [List.length_map] at hlen
  have hlast := joins_getLast? w t hroot (h.root_mem_joins t hroot)
  rw [List.getLast?_eq_getElem?] at hlast
  have hplace := (List.getElem?_inj (List.getElem?_eq_some_iff.mp ht).1
    ((Graph.ids_nodup _).filter _)).mp (ht.trans hlast.symm)
  omega

/-- The tables of a stage are those of the scans from which its join is reached. -/
theorem Divided.mem_tables_iff (h : Divided s w settled m) (n : Nat) (stage : Stage)
    (hn : m.stages[n]? = some stage) (table : TableName) :
    table ∈ stage.tables ↔ ∃ t cluster columns,
      w.step? t = some (.scan table cluster columns) ∧ w.Leads t stage.join := by
  have hjoin := Workflow.mem_starts_of_join w _ (List.mem_of_getElem? (h.stageOf n stage hn).1)
  have hleads := fun t ht =>
    Workflow.leads_iff_feeds w t stage.join (Workflow.mem_starts_of_scan w t ht) hjoin
  rw [h.mem_stage_tables n stage hn]
  constructor
  · rintro ⟨t, ht, rfl, hfeeds⟩
    rcases (Graph.mem_scans _ t).mp ht with ⟨table, cluster, columns, hstep⟩
    rw [Workflow.tableAt_of_scan w t table cluster columns hstep]
    exact ⟨t, cluster, columns, hstep, (hleads t ht).mpr hfeeds⟩
  · rintro ⟨t, cluster, columns, hstep, hreach⟩
    have ht := (Graph.mem_scans _ t).mpr ⟨table, cluster, columns, hstep⟩
    exact ⟨t, ht, Workflow.tableAt_of_scan w t table cluster columns hstep,
      (hleads t ht).mp hreach⟩

/-- A stage reads what leads to its join. -/
theorem Divided.isWired (h : Divided s w settled m) (n : Nat) (stage : Stage)
    (hn : m.stages[n]? = some stage) : IsWired w m n stage := by
  rcases h.stageOf n stage hn with ⟨hjoin, hspec⟩
  constructor
  case two_inputs => exact h.inputs_length n stage hn
  case ordered =>
    rw [hspec.inputs_eq]
    exact feedsOf_ordered w _ _ _
  case inputs_end =>
    exact ⟨_, h.inputs_mapM n stage hn m.lastStep? w.stretchEnd h.lastStep?_eq,
      Workflow.feeders_perm w _ (List.mem_of_getElem? hjoin)⟩
  case earlier =>
    intro i hi
    rcases (h.mem_inputs n stage hn _).mp hi with ⟨t, ht, hplace⟩
    exact joins_place_lt w i n t _ hplace hjoin (Workflow.lt_of_mem_feeders w _ t ht)
  case tables_ascending =>
    rw [hspec.tables_eq]
    exact ascending_pairwise _
  case mem_tables => exact h.mem_tables_iff n stage hn

end Tree

/-- The stages of a plan in branches form the tree of joins. -/
theorem stages_joinTree (config : PlannerConfig) (query : QueryId) (w : Workflow) (s : Snapshot)
    (m : MultiPlan) (hp : planSelect config query w s = .ok (.multi m)) : IsJoinTree w m := by
  rcases divided_of_multi config query w s m hp with ⟨settled, h⟩
  rcases Workflow.exists_root w with ⟨root, hroot⟩
  constructor
  case wired => exact h.isWired
  case branch_once =>
    intro i hi
    -- A branch starts at a scan, and the workflow ends with a join.
    have hscan := (h.place_of_branch i _ (List.getElem?_eq_getElem hi)).1
    have hmem := List.mem_of_getElem? hscan
    refine h.read_once root hroot (.branch i) _ hscan (Workflow.mem_starts_of_scan w _ hmem) ?_
    intro heq
    exact Graph.not_mem_joins_of_mem_scans _ _ hmem (heq ▸ h.root_mem_joins root hroot)
  case stage_once =>
    intro i hi
    have hjoin := (h.stageOf i _ (List.getElem?_eq_getElem (Nat.lt_of_succ_lt hi))).1
    exact h.read_once root hroot (.stage i) _ hjoin
      (Workflow.mem_starts_of_join w _ (List.mem_of_getElem? hjoin))
      (h.ne_root root hroot i _ hi hjoin)
  case terminal_last =>
    rcases h.last_stage root hroot with ⟨stage, hlast, heq⟩
    refine ⟨stage, hlast, ?_⟩
    rw [(h.stage_mem stage (List.mem_of_getLast? hlast)).2, Workflow.stretch_getLast?, heq,
      hroot.stretchEnd_eq]

/-- The second stage of a nested join reads the third branch and the first stage, where
    its join has its inputs, and is reached from all three scans. -/
theorem nested_tree :
    planSelect .default ⟨"q"⟩ nestedRead sharedAndRemote = .ok (.multi nestedPlan) ∧
      [2, 3].Perm (nestedRead.inputs 4) ∧
        ∀ table, table ∈ [⟨⟨"shop"⟩, "items"⟩, ⟨⟨"shop"⟩, "orders"⟩, ⟨⟨"shop"⟩, "users"⟩] ↔
          ∃ t cluster columns, nestedRead.step? t = some (.scan table cluster columns) ∧
            nestedRead.Leads t 4 := by
  have hp : planSelect .default ⟨"q"⟩ nestedRead sharedAndRemote = .ok (.multi nestedPlan) := rfl
  have h := (stages_joinTree .default ⟨"q"⟩ nestedRead sharedAndRemote nestedPlan hp).wired 1 _ rfl
  rcases h.inputs_end with ⟨ends, hends, hperm⟩
  have heq : ends = [2, 3] := (Option.some.inj hends).symm
  rw [heq] at hperm
  exact ⟨hp, hperm, h.mem_tables⟩

end Federation
