import Federation.Proofs.Planner.Failure
import Federation.Proofs.Registry.History

/-!
# Catalogs Are Never Ambiguous

A choice is ambiguous when two different connectors bear the name that is to be
chosen. The planner has to expect that of a registry, whose lists for two clusters
need not agree. A catalog keeps one connector under each name and lists that one
wherever the name is attached, with all the clusters it serves, so in a snapshot of a
catalog a name stands for one connector. Nothing that is chosen from such a snapshot
can fail, neither for a read nor for a write.

## Main definitions

* `PlanningCause.Unambiguous`: A cause other than an ambiguous name.

## Theorems

* `known_catalog`: A catalog's lists are up to date.
* `capture_catalog`: A snapshot of a catalog has one definition for each name.
* `planSelect_unambiguous`, `planInsert_unambiguous`: What follows for reads and writes.
* `plan_catalog_unambiguous`: No statement fails on an ambiguous name.
-/

namespace Federation

/-- Whether a cause is another than an ambiguous name. -/
def PlanningCause.Unambiguous (cause : PlanningCause) : Prop :=
  ∀ name handles, cause ≠ .ambiguousChoice name handles

/-- A consistent catalog knows of the connectors it lists what it lists of them. -/
theorem known_catalog (c : Catalog) (hc : c.Consistent) (cluster : ClusterName) :
    c.registry.known cluster = c.registry.connectorsOf cluster := by
  refine (List.filterMap_congr fun d hd => ?_).trans List.filterMap_some
  have hget := c.get?_of_mem_connectorsOf hc cluster d hd
  show ((c.connectors.get? d.name).map Connector.capabilities).map _ = some d
  rw [hget]
  rfl

/-- In a snapshot of a consistent catalog a name stands for one connector. -/
theorem capture_catalog (c : Catalog) (hc : c.Consistent) (clusters : List ClusterName)
    (tables : List TableName) (s : Snapshot)
    (h : (Snapshot.capture c.registry clusters tables).value = .ok s) : s.OneDefinition := by
  rcases capture_connectorsOf _ clusters tables s h with ⟨wanted, _, hlist⟩
  have hget : ∀ d, s.Lists d → c.connectors.get? d.name = some d := by
    rintro d ⟨k, hk⟩
    rw [hlist k] at hk
    by_cases hw : k ∈ wanted
    · rw [if_pos hw, known_catalog c hc] at hk
      exact c.get?_of_mem_connectorsOf hc k d hk
    · rw [if_neg hw] at hk
      exact absurd hk List.not_mem_nil
  intro d e hd he hname
  have hde := hget d hd
  rw [hname, hget e he, Option.some.injEq] at hde
  exact hde.symm

/-- Where names are not ambiguous a read does not fail on one. -/
theorem planSelect_unambiguous (config : PlannerConfig) (query : QueryId) (w : Workflow)
    (s : Snapshot) (hone : s.OneDefinition) (e : PlanningError)
    (h : planSelect config query w s = .error e) : e.cause.Unambiguous := by
  have hgrounds := (planSelect_grounds config query w s e h).2
  intro name handles hcause
  rw [hcause] at hgrounds
  generalize e.phase = phase at hgrounds
  cases hgrounds with
  | undecided t f _ _ hscans ht hf hchoice =>
      rcases part_choice s w hone hscans t ht f hf with ⟨c, hc⟩
      rw [hc] at hchoice
      cases hchoice

/-- A snapshot that lists two connectors of one name is another matter. -/
example : planSelect .default ⟨"q"⟩ joinedRead
    ⟨.ofList [(⟨"east"⟩, [.universal ⟨"a"⟩, { Connector.universal ⟨"a"⟩ with handle := ⟨"b"⟩ }]),
      (⟨"west"⟩, [.universal ⟨"c"⟩])], ∅⟩
    = .error ⟨⟨"q"⟩, .pathsBuilt, .ambiguousChoice ⟨"a"⟩ [⟨"a"⟩, ⟨"b"⟩]⟩ := rfl

/-- Where names are not ambiguous a write does not fail on one. -/
theorem planInsert_unambiguous (query : QueryId) (i : Insertion) (s : Snapshot)
    (hone : s.OneDefinition) (e : PlanningError) (h : planInsert query i s = .error e) :
    e.cause.Unambiguous := by
  have hgrounds := (planInsert_grounds query i s e h).2
  intro name handles hcause
  rw [hcause] at hgrounds
  generalize e.phase = phase at hgrounds
  cases hgrounds with
  | undecided cluster connectors _ _ hwriters hchoice =>
      -- One of the connectors that may write is chosen.
      rcases writers_eq_ok i s cluster connectors hwriters with ⟨hne, hlisted⟩
      rcases choose_fragment_exists ⟨connectors, [i.table], none⟩ (List.cons_ne_nil _ _) hne
        fun c hc d hd hname => hone c d ⟨cluster, hlisted c hc⟩ ⟨cluster, hlisted d hd⟩ hname with
        ⟨c, hc⟩
      have hchosen : chooseFor i.table connectors = .ok c := hc
      rw [hchosen] at hchoice
      cases hchoice

-- Planning against a snapshot fails with the capture or with what is planned.
theorem planAgainst_unambiguous (r : Registry) (query : QueryId) (clusters : List ClusterName)
    (tables : List TableName) (next : Snapshot → Except PlanningError Plan) (e : PlanningError)
    (hnext : ∀ s, (Snapshot.capture r clusters tables).value = .ok s → next s = .error e →
      e.cause.Unambiguous)
    (h : (planAgainst r query clusters tables next).value = .error e) : e.cause.Unambiguous := by
  rcases planAgainst_error r query clusters tables next e h with ⟨table, _, rfl⟩ | ⟨s, hs, hplan⟩
  · intro name handles hcause
    cases hcause
  · exact hnext s hs hplan

/-- Whatever calls were made to a catalog, no statement that is planned on it fails on an
    ambiguous name. -/
theorem plan_catalog_unambiguous (calls : List Catalog.Change) (config : PlannerConfig)
    (st : Statement) (query : QueryId) (phase : Phase) (name : ConnectorName)
    (handles : List Handle) :
    (plan (Catalog.after calls).registry config st).value
      ≠ .error ⟨query, phase, .ambiguousChoice name handles⟩ := by
  intro h
  have hone := fun clusters tables s =>
    capture_catalog (Catalog.after calls) (Catalog.consistent_after calls) clusters tables s
  suffices hcause : (PlanningCause.ambiguousChoice name handles).Unambiguous from
    hcause name handles rfl
  unfold plan at h
  split at h
  · rename_i w _
    exact planAgainst_unambiguous _ _ _ _ _ _ (fun s hs hplan =>
      planSelect_unambiguous config _ w s (hone _ _ s hs) _ hplan) h
  · rename_i i _
    split at h
    · cases h
    · exact planAgainst_unambiguous _ _ _ _ _ _ (fun s hs hplan =>
        planInsert_unambiguous _ i s (hone _ _ s hs) _ hplan) h
  · cases h

end Federation
