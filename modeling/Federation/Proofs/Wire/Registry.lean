import Federation.Proofs.Json.Text
import Federation.Proofs.Wire.Reading

/-!
# Reading Snapshots Back

A snapshot is written in one way and read in many. What is written has the tables in
ascending order, each of them once, and so it is with the capabilities of a connector. A
reader is not so strict: tables and capabilities may come in any order, and more than once.
Of several places of one table the last counts, and a capability that is listed twice is
declared as if it were listed once. So reading settles what a record leaves open, and
writing it again shows in order what was settled.

Names play no part in this. Whatever text a name is, it is read back as it was, from a value
and from text.

## Main definitions

* `Connector.SpelledBy`, `Snapshot.SpelledBy`: What a record says, in its own order.
* `Snapshot.Settles`: What a record comes to, where the last word on a table counts.
* `Snapshot.InOrder`: Tables and capabilities are in strictly ascending order.

## Theorems

* `CapabilitySet.ofJson_eq_ok`, `Connector.ofJson_eq_ok`, `Snapshot.ofJson_eq_ok`: Which
  records are read, and as what.
* `Snapshot.readsBack`: A snapshot is read back, whatever its names.
* `Snapshot.toJson_inOrder`: What is written is in order.
* `Snapshot.wordy_toJson`: There are no numbers in what is written.
* `Snapshot.written_settles`: A snapshot survives being written, and is read from just what
  comes to it.
-/

namespace Federation

/-! ### What is read -/

-- Text is a name, and nothing else is.
theorem Name.ofJson_eq_ok {kind : Kind} (j : Json) (n : Name kind) :
    Name.ofJson j = .ok n ↔ j = n.toJson := by
  constructor
  · intro h
    cases j <;> cases h
    rfl
  · rintro rfl
    rfl

-- Names in a list are the names of its items.
theorem Name.list_eq_ok {kind : Kind} (j : Json) (names : List (Name kind)) :
    Decoder.list Name.ofJson j = .ok names ↔ j = .list Name.toJson names := by
  rw [Decoder.list_eq_ok]
  simp only [Name.ofJson_eq_ok]
  constructor
  · rintro ⟨items, rfl, hitems⟩
    rw [← List.forall₂_map_right_iff, List.forall₂_eq_eq_eq] at hitems
    rw [hitems, Json.list]
  · rintro rfl
    refine ⟨_, rfl, ?_⟩
    rw [← List.forall₂_map_right_iff, List.forall₂_eq_eq_eq]

/-- Whether items name capabilities, one after the other. -/
def Capability.NamedBy (items : List Json) (listed : List Capability) : Prop :=
  List.Forall₂ (fun item c => Capability.ofJson item = .ok c) items listed

/-- A set is read from any list of what it declares. -/
theorem CapabilitySet.ofJson_eq_ok (j : Json) (s : CapabilitySet) :
    ofJson j = .ok s ↔ ∃ items listed, j = .array items ∧ Capability.NamedBy items listed ∧
      ∀ c, s.declares c = true ↔ c ∈ listed := by
  rw [ofJson, map_eq_ok]
  simp only [Decoder.list_eq_ok]
  constructor
  · rintro ⟨listed, ⟨items, rfl, hitems⟩, rfl⟩
    exact ⟨items, listed, rfl, hitems, declares_ofList listed⟩
  · rintro ⟨items, listed, rfl, hitems, hs⟩
    refine ⟨listed, ⟨items, rfl, hitems⟩, ext_declares fun c => Bool.eq_iff_iff.mpr ?_⟩
    rw [declares_ofList, hs]

namespace Connector

/-- Whether a record is that of a connector, with its capabilities listed in any order and
    any number of times. -/
def SpelledBy (j : Json) (c : Connector) : Prop :=
  ∃ items listed, Decoder.record ["name", "capabilities", "clusters", "handle"] j
      = .ok [some c.name.toJson, some (.array items), some (.list Name.toJson c.clusters),
        some c.handle.toJson] ∧
    Capability.NamedBy items listed ∧ ∀ d, c.capabilities.declares d = true ↔ d ∈ listed

/-- A connector is read from any record that spells it. -/
theorem ofJson_eq_ok (j : Json) (c : Connector) : ofJson j = .ok c ↔ SpelledBy j c := by
  rw [ofJson, bind_eq_ok]
  constructor
  · rintro ⟨members, hrecord, h⟩
    split at h
    · simp only [bind_eq_ok, Decoder.required_eq_ok, pure_eq_ok, Name.ofJson_eq_ok,
        Name.list_eq_ok, CapabilitySet.ofJson_eq_ok] at h
      obtain ⟨_, ⟨_, rfl, rfl⟩, _, ⟨_, rfl, items, listed, rfl, hitems, hcaps⟩, _,
        ⟨_, rfl, rfl⟩, _, ⟨_, rfl, rfl⟩, rfl⟩ := h
      exact ⟨items, listed, hrecord, hitems, hcaps⟩
    · cases h
  · rintro ⟨items, listed, hrecord, hitems, hcaps⟩
    refine ⟨_, hrecord, ?_⟩
    simp only [bind_eq_ok, Decoder.required_eq_ok, pure_eq_ok, Name.ofJson_eq_ok,
      Name.list_eq_ok, CapabilitySet.ofJson_eq_ok]
    exact ⟨_, ⟨_, rfl, rfl⟩, _, ⟨_, rfl, items, listed, rfl, hitems, hcaps⟩, _,
      ⟨_, rfl, rfl⟩, _, ⟨_, rfl, rfl⟩, rfl⟩

end Connector

-- Two values are read from an array of two.
theorem Decoder.pair_eq_ok {α β : Type} (first : Decoder α) (second : Decoder β) (j : Json)
    (e : α × β) : Decoder.pair first second j = .ok e ↔
      ∃ a b, j = .array [a, b] ∧ first a = .ok e.1 ∧ second b = .ok e.2 := by
  unfold Decoder.pair
  split
  · simp only [bind_eq_ok, pure_eq_ok]
    constructor
    · rintro ⟨a, ha, b, hb, rfl⟩
      exact ⟨_, _, rfl, ha, hb⟩
    · rintro ⟨_, _, ⟨⟩, ha, hb⟩
      exact ⟨e.1, ha, e.2, hb, rfl⟩
  · rename_i hother
    exact ⟨nofun, fun ⟨a, b, hj, _⟩ => absurd hj (hother a b)⟩

namespace Snapshot

open SortedMap (IsLast)

/-- Whether a member is that of a cluster and lists its connectors. -/
def MemberOf (m : String × Json) (e : ClusterName × List Connector) : Prop :=
  m.1 = e.1.text ∧ ∃ items, m.2 = .array items ∧ List.Forall₂ Connector.SpelledBy items e.2

/-- Whether a pair is that of a table and its cluster. -/
def PairOf (pair : Json) (e : TableName × ClusterName) : Prop :=
  ∃ table, pair = .array [table, e.2.toJson] ∧ TableName.ofJson table = .ok e.1

/-- Whether a record tells the connectors of clusters and the clusters of tables, in any order
    and any number of times. -/
def SpelledBy (j : Json) (clusters : List (ClusterName × List Connector))
    (tables : List (TableName × ClusterName)) : Prop :=
  ∃ members pairs, Decoder.record ["clusters", "tables"] j
      = .ok [some (.object members), some (.array pairs)] ∧
    List.Forall₂ MemberOf members clusters ∧ List.Forall₂ PairOf pairs tables

theorem clustersOfJson_eq_ok (j : Json) (m : SortedMap ClusterName (List Connector)) :
    clustersOfJson j = .ok m ↔ ∃ members clusters, j = .object members ∧
      List.Forall₂ MemberOf members clusters ∧ SortedMap.ofList clusters = m := by
  have hmember : ∀ (m : String × Json) (e : ClusterName × List Connector),
      (do return (⟨m.1⟩, ← Decoder.list Connector.ofJson m.2)) = Except.ok (ε := DecodeError) e ↔
        MemberOf m e := by
    intro m e
    simp only [bind_eq_ok, pure_eq_ok, Decoder.list_eq_ok, Connector.ofJson_eq_ok]
    constructor
    · rintro ⟨connectors, hconnectors, rfl⟩
      exact ⟨rfl, hconnectors⟩
    · rintro ⟨hname, hconnectors⟩
      exact ⟨e.2, hconnectors, Prod.ext (congrArg Name.mk hname.symm) rfl⟩
  unfold clustersOfJson
  split
  · rw [bind_eq_ok]
    simp only [mapM_eq_ok, hmember, pure_eq_ok]
    constructor
    · rintro ⟨clusters, hclusters, rfl⟩
      exact ⟨_, clusters, rfl, hclusters, rfl⟩
    · rintro ⟨_, clusters, ⟨⟩, hclusters, rfl⟩
      exact ⟨clusters, hclusters, rfl⟩
  · rename_i hother
    exact ⟨nofun, fun ⟨members, _, hj, _⟩ => absurd hj (hother members)⟩

theorem tablesOfJson_eq_ok (j : Json) (m : SortedMap TableName ClusterName) :
    tablesOfJson j = .ok m ↔ ∃ pairs tables, j = .array pairs ∧
      List.Forall₂ PairOf pairs tables ∧ SortedMap.ofList tables = m := by
  have hpair : ∀ pair e, Decoder.pair TableName.ofJson Name.ofJson pair = .ok e ↔
      PairOf pair e := by
    intro pair e
    simp only [Decoder.pair_eq_ok, Name.ofJson_eq_ok]
    constructor
    · rintro ⟨table, _, rfl, htable, rfl⟩
      exact ⟨table, rfl, htable⟩
    · rintro ⟨table, rfl, htable⟩
      exact ⟨table, _, rfl, htable, rfl⟩
  simp only [tablesOfJson, map_eq_ok, Decoder.list_eq_ok, hpair]
  constructor
  · rintro ⟨tables, ⟨pairs, rfl, hpairs⟩, hm⟩
    exact ⟨pairs, tables, rfl, hpairs, hm⟩
  · rintro ⟨pairs, tables, rfl, hpairs, hm⟩
    exact ⟨tables, ⟨pairs, rfl, hpairs⟩, hm⟩

/-- A snapshot is read from any record that tells what is in it in the end: of several places
    of one table, and of several lists for one cluster, the last. -/
theorem ofJson_eq_ok (j : Json) (s : Snapshot) :
    ofJson j = .ok s ↔ ∃ clusters tables, SpelledBy j clusters tables ∧
      SortedMap.ofList clusters = s.clusters ∧ SortedMap.ofList tables = s.tables := by
  rw [ofJson, bind_eq_ok]
  constructor
  · rintro ⟨members, hrecord, h⟩
    split at h
    · simp only [bind_eq_ok, Decoder.required_eq_ok, pure_eq_ok, clustersOfJson_eq_ok,
        tablesOfJson_eq_ok] at h
      obtain ⟨_, ⟨_, rfl, _, clusters, rfl, hclusters, rfl⟩, _,
        ⟨_, rfl, _, tables, rfl, htables, rfl⟩, rfl⟩ := h
      exact ⟨clusters, tables, ⟨_, _, hrecord, hclusters, htables⟩, rfl, rfl⟩
    · cases h
  · rintro ⟨clusters, tables, ⟨members, pairs, hrecord, hclusters, htables⟩, hs, ht⟩
    refine ⟨_, hrecord, ?_⟩
    simp only [bind_eq_ok, Decoder.required_eq_ok, pure_eq_ok, clustersOfJson_eq_ok,
      tablesOfJson_eq_ok]
    exact ⟨_, ⟨_, rfl, members, clusters, rfl, hclusters, hs⟩, _,
      ⟨_, rfl, pairs, tables, rfl, htables, ht⟩, rfl⟩

/-- Whether a record comes to a snapshot: of the lists it has for a cluster, and of the places
    it has for a table, the last is that of the snapshot. -/
def Settles (j : Json) (s : Snapshot) : Prop :=
  ∃ clusters tables, SpelledBy j clusters tables ∧
    (∀ cluster connectors,
      s.clusters.get? cluster = some connectors ↔ IsLast clusters cluster connectors) ∧
    ∀ table cluster, s.clusterOf table = some cluster ↔ IsLast tables table cluster

theorem ofJson_iff_settles (j : Json) (s : Snapshot) : ofJson j = .ok s ↔ Settles j s := by
  rw [ofJson_eq_ok]
  simp only [SortedMap.ofList_eq_iff, Settles, clusterOf]

/-! ### What is written -/

-- Each entry of a map is written as a member, and each of the other as a pair.
theorem spelledBy_toJson (s : Snapshot) :
    SpelledBy s.toJson s.clusters.toList s.tables.toList := by
  refine ⟨_, _, rfl, ?_, ?_⟩
  · refine List.forall₂_map_left_iff.mpr (List.forall₂_same.mpr fun e _ => ⟨rfl, _, rfl, ?_⟩)
    refine List.forall₂_map_left_iff.mpr (List.forall₂_same.mpr fun c _ => ?_)
    exact (Connector.ofJson_eq_ok _ c).mp ((Connector.readsBack c c).mpr ⟨trivial, rfl⟩)
  · refine List.forall₂_map_left_iff.mpr (List.forall₂_same.mpr fun e _ => ⟨_, rfl, ?_⟩)
    exact (TableName.readsBack e.1 e.1).mpr ⟨trivial, rfl⟩

/-- A snapshot is read back as it is. -/
theorem readsBack : ReadsBack toJson ofJson fun _ => True :=
  readsBack_of_eq fun s => (ofJson_eq_ok _ s).mpr ⟨_, _, spelledBy_toJson s,
    SortedMap.ofList_toList _, SortedMap.ofList_toList _⟩

/-- Whether tables and capabilities are listed in order, none of them twice. -/
structure InOrder (j : Json) : Prop where
  tables : ∃ pairs : List (TableName × ClusterName),
    j.member? "tables" = some (.list (fun e => .array [e.1.toJson, e.2.toJson]) pairs) ∧
      pairs.Pairwise fun a b => a.1.catalog.text < b.1.catalog.text ∨
        (a.1.catalog = b.1.catalog ∧ a.1.name < b.1.name)
  capabilities : ∃ members : List (String × List Json),
    j.member? "clusters" = some (.object (members.map fun m => (m.1, .array m.2))) ∧
      ∀ m ∈ members, ∀ connector ∈ m.2, ∃ listed,
        connector.member? "capabilities" = some (.list Capability.toJson listed) ∧
          listed.Pairwise fun c d => c.bit < d.bit

/-- What is written is in order. -/
theorem toJson_inOrder (s : Snapshot) : InOrder s.toJson := by
  constructor
  case tables =>
    exact ⟨s.tables.toList, rfl, s.tables.ascending.imp fun h => (TableName.compare_eq_lt _ _).mp h⟩
  case capabilities =>
    refine ⟨s.clusters.toList.map fun e => (e.1.text, e.2.map Connector.toJson), ?_, ?_⟩
    · rw [List.map_map]
      rfl
    · intro m hm connector hconnector
      rcases List.mem_map.mp hm with ⟨e, _, rfl⟩
      rcases List.mem_map.mp hconnector with ⟨c, _, rfl⟩
      exact ⟨c.capabilities.toList, rfl,
        c.capabilities.toList_ascending.imp fun h => Nat.compare_eq_lt.mp h⟩

/-! ### Written as text -/

-- A list of values without numbers has none.
theorem wordy_list {α : Type} (write : α → Json) (h : ∀ a, Json.Wordy (write a)) (l : List α) :
    Json.Wordy (.list write l) := by
  refine (Json.allWordy_iff _).mpr fun item hitem => ?_
  rcases List.mem_map.mp hitem with ⟨a, _, rfl⟩
  exact h a

theorem wordy_connector (c : Connector) : Json.Wordy c.toJson := by
  have hcapabilities : Json.Wordy c.capabilities.toJson :=
    wordy_list Capability.toJson (fun _ => trivial) _
  have hclusters : Json.Wordy (.list Name.toJson c.clusters) :=
    wordy_list Name.toJson (fun _ => trivial) _
  refine (Json.membersWordy_iff _).mpr ⟨by simp, ?_⟩
  simp only [List.forall_mem_cons]
  exact ⟨trivial, hcapabilities, hclusters, trivial, nofun⟩

-- Clusters have names of their own.
theorem wordy_clusters (clusters : SortedMap ClusterName (List Connector)) :
    Json.Wordy (clustersToJson clusters) := by
  refine (Json.membersWordy_iff _).mpr ⟨List.pairwise_map.mpr ?_, fun m hm => ?_⟩
  · refine clusters.ascending.imp fun {e f} hlt heq => ?_
    have hname : f.1 = e.1 := congrArg Name.mk heq
    rw [hname] at hlt
    exact nomatch Std.ReflCmp.compare_self.symm.trans hlt
  · rcases List.mem_map.mp hm with ⟨e, _, rfl⟩
    exact wordy_list _ wordy_connector _

theorem wordy_tables (tables : SortedMap TableName ClusterName) :
    Json.Wordy (tablesToJson tables) := by
  refine wordy_list _ (fun e => ?_) _
  have htable : Json.Wordy e.1.toJson := by
    refine (Json.membersWordy_iff _).mpr ⟨by simp, ?_⟩
    simp only [List.forall_mem_cons]
    exact ⟨trivial, trivial, nofun⟩
  exact ⟨htable, trivial, trivial⟩

theorem wordy_toJson (s : Snapshot) : Json.Wordy s.toJson := by
  refine (Json.membersWordy_iff _).mpr ⟨by simp, ?_⟩
  simp only [List.forall_mem_cons]
  exact ⟨wordy_clusters s.clusters, wordy_tables s.tables, nofun⟩

/-- A snapshot survives being written, as a value and as text, and what is written is in
    order. It is read from just the records that come to it, whatever their order. -/
theorem written_settles (s : Snapshot) :
    (Json.ofText? s.toJson.text = some s.toJson ∧ ofJson s.toJson = .ok s) ∧
      InOrder s.toJson ∧ ∀ j, ofJson j = .ok s ↔ Settles j s :=
  ⟨⟨Json.ofText?_text (wordy_toJson s), (readsBack s s).mpr ⟨trivial, rfl⟩⟩, toJson_inOrder s,
    fun j => ofJson_iff_settles j s⟩

/-- A record of two tables and a connector, under names that are no words. -/
def sketch (tables : List (TableName × ClusterName)) (listed : List Capability) : Json :=
  .object
    [("clusters", .object [("no one", .array [.object
      [("name", .string ""), ("capabilities", .list Capability.toJson listed),
        ("clusters", .array []), ("handle", .string "käse")]])]),
      ("tables", .list (fun e => .array [e.1.toJson, e.2.toJson]) tables)]

-- A table that moves on is where it went last.
example :
    (ofJson (sketch
        [(⟨⟨"z"⟩, "9"⟩, ⟨"east"⟩), (⟨⟨"a"⟩, "x y"⟩, ⟨"no one"⟩), (⟨⟨"z"⟩, "9"⟩, ⟨"west"⟩)]
        [.scan, .insert, .scan, .project])).toOption.map toJson
      = some (sketch [(⟨⟨"a"⟩, "x y"⟩, ⟨"no one"⟩), (⟨⟨"z"⟩, "9"⟩, ⟨"west"⟩)]
        [.scan, .project, .insert]) := rfl

end Snapshot

end Federation
