import Federation.Proofs.Planner.Refusal
import Federation.Proofs.Registry.Capture

/-!
# How Planning Fails

Errors come up from many places, and each is given the phase that planning had reached.
Here they are listed for each kind of statement, with the phases in which they end a run.
A read asks for clusters only, which a registry always answers for, so it fails on the
grounds of its own. A write asks for its table, and then for connectors that may write. A
command never gets as far as the registry.

Two causes are written down in the planner and never leave it. A choice for tables that
have no connector in common would name no step, but nothing is chosen from an empty list;
and a branch that does not start with a scan would be refused in words, but branches are
only looked for at scans.

## Main definitions

* `WriteGrounds`: On what grounds a write is refused.
* `Failure`: The causes that end the planning of a statement, each in its phase.
* `notAScan`: What is said of a branch that does not start with a scan.

## Theorems

* `planInsert_grounds`: A write is refused on one of its grounds.
* `planAgainst_error`: A capture fails, or what is planned against it.
* `branchOf_not_scan`: Where that would be said.
* `plan_fails_in_phase`: Every failure is one of those listed, and of the statement.
* `crowded_fails`: A read that needs more stages than allowed.
-/

namespace Federation

/-- On what grounds a write is refused against a snapshot: for each phase of planning the
    kinds of causes that end it there. -/
inductive WriteGrounds (i : Insertion) (s : Snapshot) : Phase → PlanningCause → Prop
  | unknown (h : s.clusterOf i.table = none) :
      WriteGrounds i s .unplanned (.unknownTable i.table)
  | unwritable (cluster : ClusterName) (hcluster : s.clusterOf i.table = some cluster)
      (h : ∀ c ∈ s.connectorsOf cluster, c.supports i.required = false) :
      WriteGrounds i s .unplanned (.noWritableConnector i.table cluster i.required)
  | undecided (cluster : ClusterName) (connectors : List Connector) (name : ConnectorName)
      (handles : List Handle) (hwriters : writers i s = .ok (cluster, connectors))
      (h : chooseFor i.table connectors = .error (.ambiguousChoice name handles)) :
      WriteGrounds i s .pathsBuilt (.ambiguousChoice name handles)

-- There is no table to write to, or nobody who may.
theorem writers_error (i : Insertion) (s : Snapshot) (cause : PlanningCause)
    (h : writers i s = .error cause) : WriteGrounds i s .unplanned cause := by
  unfold writers at h
  cases hcluster : s.clusterOf i.table with
  | none =>
      rw [hcluster] at h
      cases h
      exact WriteGrounds.unknown hcluster
  | some cluster =>
      rw [hcluster] at h
      simp only at h
      cases hable : (s.connectorsOf cluster).filter fun c => c.supports i.required with
      | nil =>
          rw [hable] at h
          cases h
          refine WriteGrounds.unwritable cluster hcluster fun c hc => ?_
          have hnone := List.filter_eq_nil_iff.mp hable c hc
          rw [Bool.not_eq_true] at hnone
          exact hnone
      | cons c others =>
          rw [hable] at h
          cases h

theorem writers_eq_ok (i : Insertion) (s : Snapshot) (cluster : ClusterName)
    (connectors : List Connector) (h : writers i s = .ok (cluster, connectors)) :
    connectors ≠ [] ∧ ∀ c ∈ connectors, c ∈ s.connectorsOf cluster := by
  unfold writers at h
  split at h
  · split at h
    · cases h
    · rename_i found c others hfilter
      cases h
      refine ⟨List.cons_ne_nil _ _, fun d hd => ?_⟩
      rw [← hfilter] at hd
      exact (List.mem_filter.mp hd).1
  · cases h

/-- A write is refused on one of its grounds. -/
theorem planInsert_grounds (query : QueryId) (i : Insertion) (s : Snapshot) (e : PlanningError)
    (h : planInsert query i s = .error e) :
    e.query = query ∧ WriteGrounds i s e.phase e.cause := by
  unfold planInsert at h
  rcases (bind_eq_error _ _ _).mp h with hwriters | ⟨⟨cluster, connectors⟩, hwriters, h⟩
  · rcases (during_eq_error _ _ _ _).mp hwriters with ⟨cause, hcause, rfl⟩
    exact ⟨rfl, writers_error i s cause hcause⟩
  · have hwriters := (during_eq_ok _ _ _ _).mp hwriters
    rcases (bind_eq_error _ _ _).mp h with hchosen | ⟨_, _, hstorage⟩
    · rcases (during_eq_error _ _ _ _).mp hchosen with ⟨cause, hcause, rfl⟩
      -- Some connector may write, so the choice is an ambiguous one.
      have hne := (writers_eq_ok i s cluster connectors hwriters).1
      rcases choose_fragment_error ⟨connectors, [i.table], none⟩ (List.cons_ne_nil _ _) hne cause
        hcause with ⟨name, handles, rfl⟩
      exact ⟨rfl, WriteGrounds.undecided cluster connectors name handles hwriters hcause⟩
    · cases hstorage

/-- Planning against a snapshot fails on a table that is asked for and unknown, or with
    what is planned. -/
theorem planAgainst_error (r : Registry) (query : QueryId) (clusters : List ClusterName)
    (tables : List TableName) (next : Snapshot → Except PlanningError Plan) (e : PlanningError)
    (h : (planAgainst r query clusters tables next).value = .error e) :
    (∃ table ∈ tables, e = ⟨query, .unplanned, .unknownTable table⟩) ∨
      ∃ s, (Snapshot.capture r clusters tables).value = .ok s ∧ next s = .error e := by
  rcases (bind_eq_error _ _ _).mp h with hcapture | ⟨s, hs, hplan⟩
  · rcases (during_eq_error _ _ _ _).mp hcapture with ⟨cause, hcause, rfl⟩
    rcases capture_error r clusters tables cause hcause with ⟨table, htable, rfl⟩
    exact Or.inl ⟨table, htable, rfl⟩
  · exact Or.inr ⟨s, (during_eq_ok _ _ _ _).mp hs, hplan⟩

/-- The causes that end the planning of a statement, each in its phase. -/
inductive Failure (r : Registry) (config : PlannerConfig) :
    StatementBody → Phase → PlanningCause → Prop
  | read (w : Workflow) (s : Snapshot) (phase : Phase) (cause : PlanningCause)
      (hs : (Snapshot.capture r w.clusters []).value = .ok s)
      (h : Grounds config w s phase cause) : Failure r config (.select w) phase cause
  | malformed (i : Insertion) (fault : WorkflowError) (h : i.fault? = some fault) :
      Failure r config (.insert i) .unplanned (.malformedStatement fault)
  | unlocated (i : Insertion) (hfault : i.fault? = none) :
      Failure r config (.insert i) .unplanned (.unknownTable i.table)
  | write (i : Insertion) (s : Snapshot) (phase : Phase) (cause : PlanningCause)
      (hfault : i.fault? = none) (hs : (Snapshot.capture r [] [i.table]).value = .ok s)
      (h : WriteGrounds i s phase cause) : Failure r config (.insert i) phase cause
  | command (c : Command) :
      Failure r config (.command c) .unplanned (.unsupportedStatement c.text)

/-- A failure is one of those that are listed for the statement. -/
theorem plan_error (r : Registry) (config : PlannerConfig) (st : Statement) (e : PlanningError)
    (h : (plan r config st).value = .error e) :
    e.query = st.query ∧ Failure r config st.body e.phase e.cause := by
  rcases st with ⟨query, catalog, body⟩
  cases body with
  | select w =>
      rcases planAgainst_error r query w.clusters [] _ e h with ⟨table, hnone, _⟩ | ⟨s, hs, h⟩
      · exact absurd hnone List.not_mem_nil
      · rcases planSelect_grounds config query w s e h with ⟨hquery, hgrounds⟩
        exact ⟨hquery, Failure.read w s _ _ hs hgrounds⟩
  | insert i =>
      unfold plan at h
      simp only at h
      cases hfault : i.fault? with
      | some fault =>
          rw [hfault] at h
          cases h
          exact ⟨rfl, Failure.malformed i fault hfault⟩
      | none =>
          rw [hfault] at h
          rcases planAgainst_error r query [] [i.table] _ e h with ⟨table, htable, rfl⟩ | ⟨s, hs, h⟩
          · rw [List.mem_singleton.mp htable]
            exact ⟨rfl, Failure.unlocated i hfault⟩
          · rcases planInsert_grounds query i s e h with ⟨hquery, hgrounds⟩
            exact ⟨hquery, Failure.write i s _ _ hfault hs hgrounds⟩
  | command c =>
      cases h
      exact ⟨rfl, Failure.command c⟩

/-- What is said of a branch that does not start with a scan. -/
def notAScan (id : Nat) : PlanningCause :=
  .unsupportedStatement ("execution path starting at " ++ stepLabel id ++ ", which is not a scan")

theorem branchOf_not_scan (w : Workflow) (id : Nat) (h : id ∉ w.scans) (found : List Connector) :
    Branch.of w id found = .error (notAScan id) := by
  unfold Branch.of
  cases hstep : w.step? id with
  | none => rfl
  | some step =>
      cases step with
      | scan table cluster columns =>
          exact absurd ((Graph.mem_scans _ id).mpr ⟨table, cluster, columns, hstep⟩) h
      | filter _ _ => rfl
      | projection _ _ => rfl
      | join _ _ => rfl

-- The first letter of a text is that of its first part.
theorem head?_append (a b : String) (c : Char) (h : a.toList.head? = some c) :
    (a ++ b).toList.head? = some c := by
  rw [String.toList_append, List.head?_append, h]
  rfl

-- Whatever else is refused in words is told from it by the first letter.
theorem ne_notAScan (text : String) (c : Char) (h : text.toList.head? = some c) (hc : c ≠ 'e')
    (id : Nat) : PlanningCause.unsupportedStatement text ≠ notAScan id := by
  intro heq
  injection heq with heq
  rw [heq, head?_append _ _ 'e' (head?_append _ _ 'e' rfl), Option.some.injEq] at h
  exact hc h.symm

theorem Grounds.ne_notAScan {config : PlannerConfig} {w : Workflow} {s : Snapshot}
    {phase : Phase} {cause : PlanningCause} (h : Grounds config w s phase cause) (id : Nat) :
    cause ≠ notAScan id := by
  cases h with
  | uncovered _ _ _ _ => exact fun heq => nomatch heq
  | undecided _ _ _ _ _ _ _ _ => exact fun heq => nomatch heq
  | unmerged _ _ _ _ => exact fun heq => nomatch heq
  | crowded _ =>
      refine Federation.ne_notAScan _ 'w' ?_ (by decide) id
      exact head?_append _ _ _ (head?_append _ _ _ (head?_append _ _ _ (head?_append _ _ _ rfl)))

theorem Failure.ne_notAScan {r : Registry} {config : PlannerConfig} {body : StatementBody}
    {phase : Phase} {cause : PlanningCause} (h : Failure r config body phase cause) (id : Nat) :
    cause ≠ notAScan id := by
  cases h with
  | read w s _ _ _ hgrounds => exact hgrounds.ne_notAScan id
  | malformed _ _ _ => exact fun heq => nomatch heq
  | unlocated _ _ => exact fun heq => nomatch heq
  | write _ _ _ _ _ _ hgrounds =>
      cases hgrounds with
      | unknown _ => exact fun heq => nomatch heq
      | unwritable _ _ _ => exact fun heq => nomatch heq
      | undecided _ _ _ _ _ _ => exact fun heq => nomatch heq
  | command c =>
      cases c with
      | listConnectors => exact Federation.ne_notAScan _ 'L' rfl (by decide) id
      | listClusters => exact Federation.ne_notAScan _ 'L' rfl (by decide) id
      | describeTable table =>
          exact Federation.ne_notAScan _ 'D' (head?_append _ _ _ rfl) (by decide) id
      | createCatalog catalog =>
          exact Federation.ne_notAScan _ 'C' (head?_append _ _ _ rfl) (by decide) id
      | dropCatalog catalog =>
          exact Federation.ne_notAScan _ 'D' (head?_append _ _ _ rfl) (by decide) id

theorem Failure.ne_noCommon {r : Registry} {config : PlannerConfig} {body : StatementBody}
    {phase : Phase} {cause : PlanningCause} (h : Failure r config body phase cause)
    (tables : List TableName) : cause ≠ .noCommonConnector tables none := by
  rintro rfl
  cases h with
  | read w s _ _ _ hgrounds => cases hgrounds
  | write _ _ _ _ _ _ hgrounds => cases hgrounds

/-- Whatever the registry and the settings, a statement fails on one of the causes that are
    listed for it, in the phase that is listed, and the error is one of its own query. It
    never fails for tables without a connector in common at no step, nor on a branch that
    does not start with a scan. -/
theorem plan_fails_in_phase (r : Registry) (config : PlannerConfig) (st : Statement)
    (e : PlanningError) (h : (plan r config st).value = .error e) :
    e.query = st.query ∧ Failure r config st.body e.phase e.cause ∧
      (∀ tables, e.cause ≠ .noCommonConnector tables none) ∧ ∀ id, e.cause ≠ notAScan id := by
  rcases plan_error r config st e h with ⟨hquery, hfailure⟩
  exact ⟨hquery, hfailure, hfailure.ne_noCommon, hfailure.ne_notAScan⟩

/-- A join has no room where no stage is allowed. -/
theorem crowded_fails :
    (plan (.universal fun k => if k = ⟨"east"⟩ then [⟨"a"⟩] else [⟨"b"⟩]) ⟨.coordinator, 0⟩
      ⟨⟨"q"⟩, ⟨"shop"⟩, .select joinedRead⟩).value
        = .error ⟨⟨"q"⟩, .connectorsChosen,
          .unsupportedStatement "workflow with 1 merge stages (at most 0 allowed)"⟩ ∧
    Failure (.universal fun k => if k = ⟨"east"⟩ then [⟨"a"⟩] else [⟨"b"⟩]) ⟨.coordinator, 0⟩
      (.select joinedRead) .connectorsChosen
        (.unsupportedStatement "workflow with 1 merge stages (at most 0 allowed)") := by
  have h : (plan (.universal fun k => if k = ⟨"east"⟩ then [⟨"a"⟩] else [⟨"b"⟩]) ⟨.coordinator, 0⟩
      ⟨⟨"q"⟩, ⟨"shop"⟩, .select joinedRead⟩).value
        = .error ⟨⟨"q"⟩, .connectorsChosen,
          .unsupportedStatement "workflow with 1 merge stages (at most 0 allowed)"⟩ := rfl
  exact ⟨h, (plan_fails_in_phase _ _ _ _ h).2.1⟩

end Federation
