import Federation.Proofs.Registry.Capture

/-!
# What a Capture Asks

The registry is used by others while a capture goes on, so what a capture asks is as much part
of its behaviour as what it brings back. Tables are located first and in their order, and the
first that has no cluster ends the capture before any connector has been asked for. Otherwise
the clusters that are named or hold a table are gone through in ascending order, each once,
however often it was named and however many of the tables it holds; what a connector declares
is asked for wherever the connector is listed.

The result and the questions are said here together, without a word on how they are come by.

## Main definitions

* `Registry.inquiry`: What is asked about one cluster.
* `Wanted`: The clusters that a capture asks about.
* `Captured`: What a capture comes to and what it asks.

## Theorems

* `locate_append`: Tables that have clusters are passed over.
* `capture_lost`, `capture_taken`: The two ways in which a capture ends.
* `capture_decided`: A capture asks and brings back just that.
* `drifting_captured`: A registry that lists one connector three times and has forgotten
  another.
-/

namespace Federation

/-- What is asked about a cluster: which connectors are there, and what each of them declares. -/
def Registry.inquiry (r : Registry) (cluster : ClusterName) : List Question :=
  .connectorsOf cluster :: (r.connectorsOf cluster).map fun c => .capabilitiesOf c.name

/-- Whether clusters are those that are named or hold a table, each once and in order. -/
structure Wanted (r : Registry) (clusters : List ClusterName) (tables : List TableName)
    (wanted : List ClusterName) : Prop where
  ascending : Ascending wanted
  mem_iff : ∀ k, k ∈ wanted ↔ k ∈ clusters ∨ ∃ t ∈ tables, r.clusterOf t = some k

/-- What a capture comes to, with the questions that lead to it. -/
inductive Captured (r : Registry) (clusters : List ClusterName) (tables : List TableName) :
    Asked (Except PlanningCause Snapshot) → Prop
  /-- Some table has no cluster. Nothing is asked after the first such table. -/
  | lost (before after : List TableName) (table : TableName)
      (htables : tables = before ++ table :: after)
      (hbefore : ∀ t ∈ before, r.clusterOf t ≠ none) (hnone : r.clusterOf table = none) :
      Captured r clusters tables
        ⟨.error (.unknownTable table), (before ++ [table]).map .clusterOf⟩
  /-- All tables have clusters. Those that are named or hold a table are asked about. -/
  | taken (s : Snapshot) (wanted : List ClusterName)
      (hlocated : ∀ t ∈ tables, r.clusterOf t ≠ none)
      (hwanted : Wanted r clusters tables wanted)
      (hclusters : ∀ k, s.clusters.get? k = if k ∈ wanted then some (r.known k) else none)
      (htables : ∀ t, s.tables.get? t = if t ∈ tables then r.clusterOf t else none) :
      Captured r clusters tables
        ⟨.ok s, tables.map .clusterOf ++ wanted.flatMap r.inquiry⟩

/-! ### Questions -/

theorem Asked.ext {α : Type} {a b : Asked α} (hvalue : a.value = b.value)
    (hquestions : a.questions = b.questions) : a = b := by
  cases a
  cases b
  simp_all

-- On behalf of several, everything is asked that is asked on behalf of one of them.
theorem each_questions {α β : Type} (f : α → Asked β) (l : List α) :
    (Asked.each f l).questions = l.flatMap fun a => (f a).questions := by
  induction l with
  | nil => rfl
  | cons a rest ih =>
      rw [List.flatMap_cons, ← ih]
      show (f a).questions ++ ((Asked.each f rest).questions ++ []) = _
      rw [List.append_nil]

theorem attached_questions (r : Registry) (cluster : ClusterName) :
    (Snapshot.attached r cluster).questions = r.inquiry cluster := by
  have hrefresh : ∀ c : Connector,
      (Snapshot.refresh r c).questions = [.capabilitiesOf c.name] := fun _ => rfl
  show [Question.connectorsOf cluster]
      ++ ((Asked.each (Snapshot.refresh r) (r.connectorsOf cluster)).questions ++ []) = _
  rw [each_questions, List.append_nil]
  simp only [hrefresh, Registry.inquiry, List.map_eq_flatMap]
  rfl

-- A table is asked for before the tables after it, and these only if it has a cluster.
theorem locate_asks (r : Registry) (table : TableName) (rest : List TableName) :
    Snapshot.locate r (table :: rest) = match r.clusterOf table with
      | none => ⟨.error (.unknownTable table), [.clusterOf table]⟩
      | some cluster => ⟨(Snapshot.locate r rest).value.map ((table, cluster) :: ·),
          .clusterOf table :: (Snapshot.locate r rest).questions⟩ := by
  refine Asked.ext ?_ ?_
  · rw [locate_cons]
    cases r.clusterOf table <;> rfl
  · rw [Snapshot.locate]
    show [Question.clusterOf table]
      ++ Asked.questions (match r.clusterOf table with | none => _ | some _ => _) = _
    cases r.clusterOf table with
    | none => rfl
    | some cluster =>
        show _ :: ((Snapshot.locate r rest).questions ++ []) = _
        rw [List.append_nil]

/-- Tables that have clusters are passed over. -/
theorem locate_append (r : Registry) (home : TableName → ClusterName) (before rest : List TableName)
    (hbefore : ∀ t ∈ before, r.clusterOf t = some (home t)) :
    Snapshot.locate r (before ++ rest)
      = ⟨(Snapshot.locate r rest).value.map (before.map (fun t => (t, home t)) ++ ·),
          before.map .clusterOf ++ (Snapshot.locate r rest).questions⟩ := by
  induction before with
  | nil =>
      refine Asked.ext ?_ rfl
      cases h : (Snapshot.locate r rest).value with
      | error cause => exact h
      | ok located => exact h
  | cons table others ih =>
      rw [List.cons_append, locate_asks, hbefore table List.mem_cons_self,
        ih fun t ht => hbefore t (List.mem_cons_of_mem _ ht)]
      refine Asked.ext ?_ rfl
      show Except.map _ (Except.map _ _) = _
      cases (Snapshot.locate r rest).value <;> rfl

/-! ### The two ends of a capture -/

section Capture

variable (r : Registry) (clusters : List ClusterName)

-- A table that has some cluster has the one that it is given as a default.
theorem clusterOf_eq_getD {tables : List TableName} (h : ∀ t ∈ tables, r.clusterOf t ≠ none) :
    ∀ t ∈ tables, r.clusterOf t = some ((r.clusterOf t).getD default) := by
  intro t ht
  cases hcluster : r.clusterOf t with
  | none => exact absurd hcluster (h t ht)
  | some cluster => rfl

/-- The first table without a cluster ends a capture. -/
theorem capture_lost (before after : List TableName) (table : TableName)
    (hbefore : ∀ t ∈ before, r.clusterOf t ≠ none) (hnone : r.clusterOf table = none) :
    Snapshot.capture r clusters (before ++ table :: after)
      = ⟨.error (.unknownTable table), (before ++ [table]).map .clusterOf⟩ := by
  unfold Snapshot.capture
  rw [locate_append r _ before _ (clusterOf_eq_getD r hbefore), locate_asks, hnone]
  refine Asked.ext rfl ?_
  show (before.map Question.clusterOf ++ [.clusterOf table]) ++ [] = _
  rw [List.append_nil, List.map_append]
  rfl

-- Once the tables are located, the clusters in question are asked about.
theorem capture_questions (tables : List TableName) (located : List (TableName × ClusterName))
    (questions : List Question) (h : Snapshot.locate r tables = ⟨.ok located, questions⟩) :
    (Snapshot.capture r clusters tables).questions = questions
      ++ (ascending (clusters ++ (SortedMap.ofList located).values)).flatMap r.inquiry := by
  unfold Snapshot.capture
  rw [h]
  show questions ++ ((Asked.each (Snapshot.attached r) _).questions ++ []) = _
  rw [each_questions, List.append_nil]
  simp only [attached_questions]

/-- Where all tables have clusters, the clusters that are wanted are asked about. -/
theorem capture_taken (tables : List TableName) (wanted : List ClusterName)
    (hlocated : ∀ t ∈ tables, r.clusterOf t ≠ none) (hwanted : Wanted r clusters tables wanted) :
    ∃ s : Snapshot, (∀ k, s.clusters.get? k = if k ∈ wanted then some (r.known k) else none) ∧
      (∀ t, s.tables.get? t = if t ∈ tables then r.clusterOf t else none) ∧
      Snapshot.capture r clusters tables
        = ⟨.ok s, tables.map .clusterOf ++ wanted.flatMap r.inquiry⟩ := by
  have hhome := clusterOf_eq_getD r hlocated
  generalize hentries : tables.map (fun t => (t, (r.clusterOf t).getD default)) = located
  have hlocate : Snapshot.locate r tables = ⟨.ok located, tables.map .clusterOf⟩ := by
    have happend := locate_append r _ tables [] hhome
    rw [List.append_nil, hentries] at happend
    rw [happend]
    refine Asked.ext ?_ (List.append_nil _)
    exact congrArg Except.ok (List.append_nil located)
  have htables : ∀ t, (SortedMap.ofList located).get? t
      = if t ∈ tables then r.clusterOf t else none := fun t => by
    rw [← hentries, SortedMap.get?_ofList_map]
    by_cases ht : t ∈ tables
    · rw [if_pos ht, if_pos ht, ← hhome t ht]
    · rw [if_neg ht, if_neg ht]
  have heq : ascending (clusters ++ (SortedMap.ofList located).values) = wanted := by
    refine (ascending_pairwise _).ext hwanted.ascending fun k => ?_
    rw [hwanted.mem_iff, mem_ascending, List.mem_append, SortedMap.mem_values]
    refine or_congr_right (exists_congr fun t => ?_)
    rw [htables]
    by_cases ht : t ∈ tables
    · rw [if_pos ht, and_iff_right ht]
    · rw [if_neg ht]
      exact iff_of_false nofun fun h => ht h.1
  refine ⟨⟨.ofList (wanted.map fun k => (k, r.known k)), .ofList located⟩,
    SortedMap.get?_ofList_map r.known wanted, htables, Asked.ext ?_ ?_⟩
  · rw [capture_value, hlocate]
    show Except.ok (Snapshot.mk _ _) = _
    rw [heq]
  · rw [capture_questions r clusters tables located _ hlocate, heq]

end Capture

/-! ### What a capture comes to -/

section Decided

variable (r : Registry) (clusters : List ClusterName) (tables : List TableName)

-- Either all tables have clusters or there is a first that has none.
theorem located_or_lost : (∀ t ∈ tables, r.clusterOf t ≠ none) ∨
    ∃ before table after, tables = before ++ table :: after ∧
      (∀ t ∈ before, r.clusterOf t ≠ none) ∧ r.clusterOf table = none := by
  cases hfind : tables.find? fun t => (r.clusterOf t).isNone with
  | none =>
      refine Or.inl fun t ht hnone => ?_
      exact List.find?_eq_none.mp hfind t ht (Option.isNone_iff_eq_none.mpr hnone)
  | some table =>
      rcases List.find?_eq_some_iff_append.mp hfind with ⟨hnone, before, after, hsplit, hbefore⟩
      refine Or.inr ⟨before, table, after, hsplit, fun t ht hlost => ?_, by simpa using hnone⟩
      simpa [hlost] using hbefore t ht

/-- A capture comes to what is said of it, -/
theorem captured : Captured r clusters tables (Snapshot.capture r clusters tables) := by
  rcases located_or_lost r tables with hlocated | ⟨before, table, after, rfl, hbefore, hnone⟩
  · have hwanted : Wanted r clusters tables
        (ascending (clusters ++ tables.filterMap r.clusterOf)) :=
      ⟨ascending_pairwise _, fun k => by
        rw [mem_ascending, List.mem_append, List.mem_filterMap]⟩
    rcases capture_taken r clusters tables _ hlocated hwanted with
      ⟨s, hclusters, htables, hcapture⟩
    rw [hcapture]
    exact Captured.taken s _ hlocated hwanted hclusters htables
  · rw [capture_lost r clusters before after table hbefore hnone]
    exact Captured.lost before after table rfl hbefore hnone

/-- and to nothing else. -/
theorem Captured.eq {a : Asked (Except PlanningCause Snapshot)} (h : Captured r clusters tables a) :
    Snapshot.capture r clusters tables = a := by
  cases h with
  | lost before after table htables hbefore hnone =>
      rw [htables]
      exact capture_lost r clusters before after table hbefore hnone
  | taken s wanted hlocated hwanted hclusters htables =>
      rcases capture_taken r clusters tables wanted hlocated hwanted with
        ⟨s', hclusters', htables', hcapture⟩
      have hs : s' = s := by
        have hk := SortedMap.ext_get? fun k => (hclusters' k).trans (hclusters k).symm
        have ht := SortedMap.ext_get? fun t => (htables' t).trans (htables t).symm
        cases s
        cases s'
        exact congr (congrArg Snapshot.mk hk) ht
      rw [hcapture, hs]

/-- What a capture brings back and what it asks for it is decided by the answers of the registry,
    whether they fit together or not. All that is brought back under one name declares the
    same. -/
theorem capture_decided :
    (∀ a, Snapshot.capture r clusters tables = a ↔ Captured r clusters tables a) ∧
      ∀ s, (Snapshot.capture r clusters tables).value = .ok s → s.OneDeclaration :=
  ⟨fun _ => ⟨fun h => h ▸ captured r clusters tables, Captured.eq r clusters tables⟩,
    capture_oneDeclaration r clusters tables⟩

end Decided

/-- A registry that lists a connector twice on one cluster and once more on another, each time
    with another address, tells two tales of what the connector declares, and has forgotten the
    connector that it lists beside it. -/
def driftingRegistry : Registry :=
  let a (handle : String) : Connector := ⟨⟨"a"⟩, .ofList [.insert], [], ⟨handle⟩⟩
  let gone : Connector := ⟨⟨"gone"⟩, .ofList [.scan], [], ⟨"gone"⟩⟩
  { clusterOf t := if t.name = "users" then some ⟨"east"⟩ else none
    connectorsOf k := if k = ⟨"east"⟩ then [a "first", gone, a "second"] else [a "third"]
    capabilitiesOf name := if name = ⟨"a"⟩ then some (.ofList [.scan]) else none }

/-- The cluster of a table that is listed twice is named besides, and asked about once. With
    another table that has no cluster no connector is asked for. -/
theorem drifting_captured :
    (∃ s, Snapshot.capture driftingRegistry [⟨"west"⟩, ⟨"east"⟩, ⟨"west"⟩]
        [⟨⟨"shop"⟩, "users"⟩, ⟨⟨"shop"⟩, "users"⟩]
        = ⟨.ok s, [.clusterOf ⟨⟨"shop"⟩, "users"⟩, .clusterOf ⟨⟨"shop"⟩, "users"⟩,
            .connectorsOf ⟨"east"⟩, .capabilitiesOf ⟨"a"⟩, .capabilitiesOf ⟨"gone"⟩,
            .capabilitiesOf ⟨"a"⟩, .connectorsOf ⟨"west"⟩, .capabilitiesOf ⟨"a"⟩]⟩ ∧
      (s.connectorsOf ⟨"east"⟩).length = 2 ∧ s.OneDeclaration) ∧
    Captured driftingRegistry [⟨"west"⟩]
      [⟨⟨"shop"⟩, "users"⟩, ⟨⟨"shop"⟩, "items"⟩, ⟨⟨"shop"⟩, "users"⟩]
      ⟨.error (.unknownTable ⟨⟨"shop"⟩, "items"⟩),
        [.clusterOf ⟨⟨"shop"⟩, "users"⟩, .clusterOf ⟨⟨"shop"⟩, "items"⟩]⟩ := by
  constructor
  · refine ⟨_, rfl, rfl, ?_⟩
    exact (capture_decided driftingRegistry [⟨"west"⟩, ⟨"east"⟩, ⟨"west"⟩]
      [⟨⟨"shop"⟩, "users"⟩, ⟨⟨"shop"⟩, "users"⟩]).2 _ rfl
  · exact ((capture_decided driftingRegistry [⟨"west"⟩]
      [⟨⟨"shop"⟩, "users"⟩, ⟨⟨"shop"⟩, "items"⟩, ⟨⟨"shop"⟩, "users"⟩]).1 _).mp rfl

end Federation
