import Federation.Registry.Snapshot

/-!
# What Is Captured

A snapshot lists for a cluster that was asked for the connectors that the registry
lists there, each with what the registry knows of it at that moment and without
those it has forgotten, and for any other cluster nothing.

A registry may list one connector many times, on many clusters and with different
addresses. Since capabilities are asked for by name, all these entries declare the
same. This is the one promise of a snapshot on which plans rely: a connector that
was found to be capable under its name on one cluster is so wherever that name is
found.

## Main definitions

* `Registry.known`: The connectors of a cluster as a registry knows them.
* `Snapshot.Lists`: A connector is listed on some cluster.
* `Snapshot.OneDeclaration`: Entries of one name declare the same.
* `Snapshot.OneDefinition`: Entries of one name are the same.
* `Registry.universal`: A registry whose connectors can execute anything.

## Theorems

* `lists_iff`, `oneDefinition_iff`: What is listed, and how names are kept apart.
* `capture_value`: What a capture comes to.
* `capture_connectorsOf`: The connectors of a cluster in a snapshot.
* `capture_oneDeclaration`: Captured entries of one name declare the same.
* `capture_clusters`: Capturing clusters alone never fails.
* `capture_error`: What a capture fails on.
* `capture_universal`: Where connectors can execute anything, names tell them apart.
-/

namespace Federation

/-- The connectors of a cluster with what a registry knows of them, but for those
    it has forgotten. -/
def Registry.known (r : Registry) (cluster : ClusterName) : List Connector :=
  (r.connectorsOf cluster).filterMap fun c =>
    (r.capabilitiesOf c.name).map fun now => { c with capabilities := now }

namespace Snapshot

/-- Whether a connector is listed on some cluster. -/
def Lists (s : Snapshot) (c : Connector) : Prop := ∃ cluster, c ∈ s.connectorsOf cluster

/-- Whether entries of one name declare the same. -/
def OneDeclaration (s : Snapshot) : Prop :=
  ∀ c d, s.Lists c → s.Lists d → c.name = d.name → c.capabilities = d.capabilities

/-- Whether entries of one name are the same. -/
def OneDefinition (s : Snapshot) : Prop :=
  ∀ c d, s.Lists c → s.Lists d → c.name = d.name → c = d

-- What is listed on some cluster is among all that is listed.
theorem lists_iff (s : Snapshot) (c : Connector) :
    s.Lists c ↔ c ∈ s.clusters.values.flatten := by
  unfold Lists connectorsOf
  rw [List.mem_flatten]
  constructor
  · rintro ⟨cluster, hc⟩
    cases hk : s.clusters.get? cluster with
    | none =>
        rw [hk] at hc
        exact absurd hc List.not_mem_nil
    | some l =>
        rw [hk] at hc
        exact ⟨l, (SortedMap.mem_values _ l).mpr ⟨cluster, hk⟩, hc⟩
  · rintro ⟨l, hl, hc⟩
    rcases (SortedMap.mem_values _ l).mp hl with ⟨cluster, hk⟩
    refine ⟨cluster, ?_⟩
    rw [hk]
    exact hc

theorem oneDefinition_iff (s : Snapshot) :
    s.OneDefinition ↔ ∀ c ∈ s.clusters.values.flatten, ∀ d ∈ s.clusters.values.flatten,
      c.name = d.name → c = d := by
  unfold OneDefinition
  simp only [lists_iff]
  exact ⟨fun h c hc d hd => h c d hc hd, fun h c d hc hd => h c hc d hd⟩

instance (s : Snapshot) : Decidable s.OneDefinition :=
  decidable_of_iff _ (oneDefinition_iff s).symm

end Snapshot

-- What is asked on behalf of several is answered for each of them.
theorem each_value {α β : Type} (f : α → Asked β) (l : List α) :
    (Asked.each f l).value = l.map fun a => (f a).value := by
  induction l with
  | nil => rfl
  | cons a rest ih =>
      rw [List.map_cons, ← ih]
      rfl

theorem attached_value (r : Registry) (cluster : ClusterName) :
    (Snapshot.attached r cluster).value = (cluster, r.known cluster) := by
  have heach := each_value (Snapshot.refresh r) (r.connectorsOf cluster)
  show (cluster, ((Asked.each (Snapshot.refresh r) (r.connectorsOf cluster)).value).filterMap id)
    = (cluster, r.known cluster)
  rw [heach, List.filterMap_map]
  rfl

/-- Once the tables are located, every cluster that is wanted is asked for once. -/
theorem capture_value (r : Registry) (clusters : List ClusterName) (tables : List TableName) :
    (Snapshot.capture r clusters tables).value
      = (Snapshot.locate r tables).value.map fun located =>
          ⟨SortedMap.ofList ((ascending (clusters ++ (SortedMap.ofList located).values)).map
            fun k => (k, r.known k)), SortedMap.ofList located⟩ := by
  unfold Snapshot.capture
  cases Snapshot.locate r tables with
  | mk value questions =>
      cases value with
      | error cause => rfl
      | ok located =>
          show Except.ok (Snapshot.mk
            (SortedMap.ofList (Asked.each (Snapshot.attached r) _).value) _) = _
          rw [each_value]
          simp only [attached_value]
          rfl

/-- A snapshot knows the connectors of the clusters it was asked for. -/
theorem capture_connectorsOf (r : Registry) (clusters : List ClusterName)
    (tables : List TableName) (s : Snapshot)
    (h : (Snapshot.capture r clusters tables).value = .ok s) :
    ∃ wanted : List ClusterName, (∀ k ∈ clusters, k ∈ wanted) ∧
      ∀ k, s.connectorsOf k = if k ∈ wanted then r.known k else [] := by
  rw [capture_value] at h
  cases hlocated : (Snapshot.locate r tables).value with
  | error cause =>
      rw [hlocated] at h
      cases h
  | ok located =>
      rw [hlocated] at h
      cases h
      refine ⟨ascending (clusters ++ (SortedMap.ofList located).values), fun k hk => ?_,
        fun k => ?_⟩
      · rw [mem_ascending]
        exact List.mem_append_left _ hk
      · unfold Snapshot.connectorsOf
        rw [SortedMap.get?_ofList_map]
        by_cases hk : k ∈ ascending (clusters ++ (SortedMap.ofList located).values)
        · rw [if_pos hk, if_pos hk]
          rfl
        · rw [if_neg hk, if_neg hk]
          rfl

/-- Clusters alone can always be captured. -/
theorem capture_clusters (r : Registry) (clusters : List ClusterName) :
    ∃ s, (Snapshot.capture r clusters []).value = .ok s :=
  ⟨_, rfl⟩

-- A table is located before the tables after it.
theorem locate_cons (r : Registry) (table : TableName) (rest : List TableName) :
    (Snapshot.locate r (table :: rest)).value = match r.clusterOf table with
      | none => .error (.unknownTable table)
      | some cluster => (Snapshot.locate r rest).value.map ((table, cluster) :: ·) := by
  rw [Snapshot.locate]
  show Asked.value (match r.clusterOf table with | none => _ | some _ => _) = _
  cases r.clusterOf table <;> rfl

/-- A capture fails on a table without a cluster and on nothing else. -/
theorem capture_error (r : Registry) (clusters : List ClusterName) (tables : List TableName)
    (cause : PlanningCause) (h : (Snapshot.capture r clusters tables).value = .error cause) :
    ∃ table ∈ tables, cause = .unknownTable table := by
  rw [capture_value] at h
  have hlocate : (Snapshot.locate r tables).value = .error cause := by
    cases hlocated : (Snapshot.locate r tables).value with
    | error cause' =>
        rw [hlocated] at h
        cases h
        rfl
    | ok located =>
        rw [hlocated] at h
        cases h
  clear h
  induction tables with
  | nil => cases hlocate
  | cons table rest ih =>
      rw [locate_cons] at hlocate
      cases hcluster : r.clusterOf table with
      | none =>
          rw [hcluster] at hlocate
          cases hlocate
          exact ⟨table, List.mem_cons_self, rfl⟩
      | some cluster =>
          rw [hcluster] at hlocate
          cases hrest : (Snapshot.locate r rest).value with
          | error cause' =>
              rw [hrest] at hlocate
              cases hlocate
              rcases ih hrest with ⟨other, hother, hcause⟩
              exact ⟨other, List.mem_cons_of_mem _ hother, hcause⟩
          | ok located =>
              rw [hrest] at hlocate
              cases hlocate

-- A captured entry declares what the registry answers for its name.
theorem capture_capabilities (r : Registry) (clusters : List ClusterName)
    (tables : List TableName) (s : Snapshot)
    (h : (Snapshot.capture r clusters tables).value = .ok s) (c : Connector) (hc : s.Lists c) :
    r.capabilitiesOf c.name = some c.capabilities := by
  rcases capture_connectorsOf r clusters tables s h with ⟨wanted, _, hlist⟩
  rcases hc with ⟨k, hk⟩
  rw [hlist k] at hk
  by_cases hw : k ∈ wanted
  · rw [if_pos hw] at hk
    rcases List.mem_filterMap.mp hk with ⟨d, _, hd⟩
    rcases Option.map_eq_some_iff.mp hd with ⟨now, hnow, rfl⟩
    exact hnow
  · rw [if_neg hw] at hk
    exact absurd hk List.not_mem_nil

/-- Captured entries of one name declare the same. -/
theorem capture_oneDeclaration (r : Registry) (clusters : List ClusterName)
    (tables : List TableName) (s : Snapshot)
    (h : (Snapshot.capture r clusters tables).value = .ok s) : s.OneDeclaration := by
  intro c d hc hd hname
  have hcap := capture_capabilities r clusters tables s h c hc
  rw [hname, capture_capabilities r clusters tables s h d hd, Option.some.injEq] at hcap
  exact hcap.symm

/-- A connector that can execute anything. -/
def Connector.universal (name : ConnectorName) : Connector :=
  ⟨name, .ofList Capability.all, [], ⟨name.text⟩⟩

/-- A registry whose connectors can execute anything. -/
def Registry.universal (listed : ClusterName → List ConnectorName) : Registry where
  clusterOf _ := none
  connectorsOf cluster := (listed cluster).map Connector.universal
  capabilitiesOf _ := some (.ofList Capability.all)

-- Asking again what such a connector declares brings nothing new.
theorem known_universal (listed : ClusterName → List ConnectorName) (cluster : ClusterName) :
    (Registry.universal listed).known cluster = (listed cluster).map Connector.universal := by
  show ((listed cluster).map Connector.universal).filterMap _ = _
  rw [List.filterMap_map, ← List.filterMap_eq_map]
  rfl

-- A connector that can execute anything declares every capability.
theorem supports_universal (name : ConnectorName) (capability : Capability) :
    (Connector.universal name).supports capability = true :=
  (CapabilitySet.declares_ofList _ capability).mpr (Capability.mem_all capability)

/-- In a snapshot of such a registry a name tells all there is to a connector. -/
theorem capture_universal (listed : ClusterName → List ConnectorName)
    (clusters : List ClusterName) (tables : List TableName) (s : Snapshot)
    (h : (Snapshot.capture (Registry.universal listed) clusters tables).value = .ok s) :
    s.OneDefinition := by
  rcases capture_connectorsOf _ clusters tables s h with ⟨wanted, _, hlist⟩
  have hself : ∀ c, s.Lists c → c = Connector.universal c.name := by
    rintro c ⟨k, hk⟩
    rw [hlist k] at hk
    by_cases hw : k ∈ wanted
    · rw [if_pos hw, known_universal] at hk
      rcases List.mem_map.mp hk with ⟨name, _, rfl⟩
      rfl
    · rw [if_neg hw] at hk
      exact absurd hk List.not_mem_nil
  intro c d hc hd hname
  rw [hself c hc, hself d hd, hname]

end Federation
