import Federation.Proofs.Planner.Unambiguous
import Federation.Proofs.Planner.Unattached

/-!
# What Happens Elsewhere

A read is planned with the connectors of the clusters that it scans. A call to the
catalog that concerns other clusters changes the records of these connectors even so:
attach one of them to a cluster that the read has nothing to do with, and the new
cluster is listed with the connector wherever it is found, also in the plan of the read.

Nothing more comes of it. The clusters of the read name the same connectors in the same
order before the call and after it, and each connector is the same but for the clusters
that it serves. At these the planner does not look, as long as a name stands for one
connector, and in a catalog it always does.

## Main definitions

* `Catalog.Change.Elsewhere`: A call that concerns nothing of some clusters.
* `Catalog.ElsewhereSince`: Calls of which none does.

## Theorems

* `attachedTo_elsewhere`, `get?_elsewhere`: The clusters name the same connectors, and
  these are defined as they were.
* `connectorsOf_elsewhere`: What is listed is the same but for the clusters served.
* `plan_elsewhere`, `plan_elsewhere_since`: So is the plan of a read, after one such call
  and after any number of them.
* `planned_elsewhere`: The read is explained and dispatched as before, or fails as before.
* `north_elsewhere`: A connector of a plan that is attached to one cluster more.
-/

namespace Federation

namespace Catalog

/-- Whether none of some clusters names a connector, neither before a call nor after. -/
def Change.Unnamed (clusters : List ClusterName) (past : List Change) (call : Change)
    (name : ConnectorName) : Prop :=
  ∀ k ∈ clusters, name ∉ (after past).attachedTo k ∧ name ∉ (after (call :: past)).attachedTo k

/-- Whether a call concerns nothing of some clusters. It records a table, attaches to
    another cluster or detaches from one, or registers or removes a connector that none
    of the clusters names. -/
def Change.Elsewhere (clusters : List ClusterName) (past : List Change) (call : Change) : Prop :=
  match call with
  | .register connector => call.Unnamed clusters past connector.name
  | .attach cluster _ => cluster ∉ clusters
  | .detach cluster _ => cluster ∉ clusters
  | .remove name => call.Unnamed clusters past name
  | .registerTable _ _ => True

-- A call has an effect, or it is refused and has none.
theorem after_cons (past : List Change) (call : Change) :
    (after past).perform call = .ok (after (call :: past)) ∨ after (call :: past) = after past := by
  cases hperform : (after past).perform call with
  | ok c =>
      left
      rw [after, hperform]
  | error e =>
      right
      rw [after, hperform]

section Elsewhere

variable (clusters : List ClusterName) (past : List Change) (call : Change)
  (h : call.Elsewhere clusters past)

include h

/-- The clusters name the same connectors as before, in the same order. -/
theorem attachedTo_elsewhere (k : ClusterName) (hk : k ∈ clusters) :
    (after (call :: past)).attachedTo k = (after past).attachedTo k := by
  rcases after_cons past call with hperform | hrefused
  · have hc := consistent_after past
    rw [attachedTo_perform _ _ call hc hperform k]
    cases call with
    | register connector =>
        -- Asked to be attached there, the connector would be named there.
        have hjoining : k ∉ connector.clusters := by
          intro hjoin
          refine (h k hk).2 ((mem_attachedTo_perform _ _ _ hc hperform _ k).mpr (Or.inr ?_))
          exact if_pos hjoin
        simp only [Change.joining?, Change.leaving?, if_neg hjoining, filter_ne_none]
        rfl
    | attach cluster name =>
        have hne : cluster ≠ k := fun heq => h (heq ▸ hk)
        simp only [Change.joining?, Change.leaving?, if_neg hne, filter_ne_none]
        rfl
    | detach cluster name =>
        have hne : cluster ≠ k := fun heq => h (heq ▸ hk)
        simp only [Change.joining?, Change.leaving?, if_neg hne, filter_ne_none]
        rfl
    | remove name =>
        simp only [Change.joining?, Change.leaving?, filter_ne_some]
        refine List.filter_eq_self.mpr fun other hother => bne_iff_ne.mpr fun heq => ?_
        exact (h k hk).1 (heq ▸ hother)
    | registerTable table cluster =>
        simp only [Change.joining?, Change.leaving?, filter_ne_none]
        rfl
  · rw [hrefused]

/-- A connector that one of the clusters names is defined as before. -/
theorem get?_elsewhere (k : ClusterName) (hk : k ∈ clusters) (name : ConnectorName)
    (hname : name ∈ (after past).attachedTo k) :
    ((after (call :: past)).connectors.get? name).map Connector.unattached
      = ((after past).connectors.get? name).map Connector.unattached := by
  rcases after_cons past call with hperform | hrefused
  · rw [get?_perform _ _ call hperform]
    cases call with
    | register connector =>
        have hne : connector.name ≠ name := fun heq => (h k hk).1 (heq ▸ hname)
        rw [Change.definition?, if_neg hne]
    | remove gone =>
        have hne : gone ≠ name := fun heq => (h k hk).1 (heq ▸ hname)
        rw [Change.definition?, if_neg hne]
    | attach _ _ => rfl
    | detach _ _ => rfl
    | registerTable _ _ => rfl
  · rw [hrefused]

/-- The clusters list the same connectors, but for the clusters that these serve. -/
theorem connectorsOf_elsewhere (k : ClusterName) (hk : k ∈ clusters) :
    ((after (call :: past)).registry.connectorsOf k).map Connector.unattached
      = ((after past).registry.connectorsOf k).map Connector.unattached := by
  show (((after (call :: past)).attachedTo k).filterMap _).map _
    = (((after past).attachedTo k).filterMap _).map _
  rw [attachedTo_elsewhere clusters past call h k hk, List.map_filterMap, List.map_filterMap]
  exact List.filterMap_congr fun name hname => get?_elsewhere clusters past call h k hk name hname

end Elsewhere

/-- Whether none of several calls, the latest first, concerns any of some clusters. -/
def ElsewhereSince (clusters : List ClusterName) (past : List Change) : List Change → Prop
  | [] => True
  | call :: more => call.Elsewhere clusters (more ++ past) ∧ ElsewhereSince clusters past more

end Catalog

-- A snapshot of a catalog lists for a cluster that was asked for what the catalog lists.
theorem capture_connectorsOf_catalog (c : Catalog) (hc : c.Consistent) (w : Workflow)
    (s : Snapshot) (h : (Snapshot.capture c.registry w.clusters []).value = .ok s)
    (k : ClusterName) (hk : k ∈ w.clusters) : s.connectorsOf k = c.registry.connectorsOf k := by
  rcases capture_connectorsOf c.registry w.clusters [] s h with ⟨wanted, hwanted, hlist⟩
  rw [hlist k, if_pos (hwanted k hk), known_catalog c hc]

-- A read is planned on the snapshot of its clusters.
theorem plan_value_select (r : Registry) (config : PlannerConfig) (query : QueryId)
    (catalog : CatalogName) (w : Workflow) (s : Snapshot)
    (h : (Snapshot.capture r w.clusters []).value = .ok s) :
    (plan r config ⟨query, catalog, .select w⟩).value = planSelect config query w s := by
  show (during query .unplanned (Snapshot.capture r w.clusters []).value
    >>= planSelect config query w) = _
  rw [h]
  rfl

section Plan

variable (config : PlannerConfig) (query : QueryId) (catalog : CatalogName) (w : Workflow)

/-- A call elsewhere leaves the plan of a read as it was, but for the clusters that its
    connectors serve. -/
theorem plan_elsewhere (past : List Catalog.Change) (call : Catalog.Change)
    (h : call.Elsewhere w.clusters past) :
    (plan (Catalog.after (call :: past)).registry config ⟨query, catalog, .select w⟩).value.map
        Plan.unattached
      = (plan (Catalog.after past).registry config ⟨query, catalog, .select w⟩).value.map
        Plan.unattached := by
  have hc := Catalog.consistent_after past
  have hc' := Catalog.consistent_after (call :: past)
  rcases capture_clusters (Catalog.after past).registry w.clusters with ⟨s, hs⟩
  rcases capture_clusters (Catalog.after (call :: past)).registry w.clusters with ⟨s', hs'⟩
  rw [plan_value_select _ config query catalog w s hs,
    plan_value_select _ config query catalog w s' hs']
  refine planSelect_unattached config query w s' s (capture_catalog _ hc' _ _ s' hs')
    (capture_catalog _ hc _ _ s hs) fun k hk => ?_
  rw [capture_connectorsOf_catalog _ hc w s hs k hk,
    capture_connectorsOf_catalog _ hc' w s' hs' k hk]
  exact Catalog.connectorsOf_elsewhere w.clusters past call h k hk

/-- So do any number of calls elsewhere. -/
theorem plan_elsewhere_since (past more : List Catalog.Change)
    (h : Catalog.ElsewhereSince w.clusters past more) :
    (plan (Catalog.after (more ++ past)).registry config ⟨query, catalog, .select w⟩).value.map
        Plan.unattached
      = (plan (Catalog.after past).registry config ⟨query, catalog, .select w⟩).value.map
        Plan.unattached := by
  induction more with
  | nil => rfl
  | cons call more ih =>
      exact (plan_elsewhere config query catalog w (more ++ past) call h.1).trans (ih h.2)

/-- After a call elsewhere a read fails as it did before, or is planned as it was: the
    plans are the same but for the clusters that their connectors serve, so that both
    are explained in the same words and the same is sent to the same connectors. -/
theorem planned_elsewhere (past : List Catalog.Change) (call : Catalog.Change)
    (h : call.Elsewhere w.clusters past) :
    (∃ e, (plan (Catalog.after past).registry config ⟨query, catalog, .select w⟩).value
          = .error e ∧
        (plan (Catalog.after (call :: past)).registry config ⟨query, catalog, .select w⟩).value
          = .error e) ∨
      ∃ p p', (plan (Catalog.after past).registry config ⟨query, catalog, .select w⟩).value
          = .ok p ∧
        (plan (Catalog.after (call :: past)).registry config ⟨query, catalog, .select w⟩).value
          = .ok p' ∧
        p.unattached = p'.unattached ∧ p.text = p'.text ∧ p.units = p'.units := by
  have hagree := agree_of_map_eq _ _ _ _ (plan_elsewhere config query catalog w past call h).symm
  rcases (agree_iff _ _ _).mp hagree with herror | ⟨p, p', hp, hp', hbare⟩
  · exact Or.inl herror
  · refine Or.inr ⟨p, p', hp, hp', hbare, ?_, ?_⟩
    · rw [← p.unattached_text, hbare, p'.unattached_text]
    · rw [← p.unattached_units, hbare, p'.unattached_units]

end Plan

/-- Two clusters with a connector each that can execute anything. -/
def oneEach : List Catalog.Change :=
  [.register { Connector.universal ⟨"b"⟩ with clusters := [⟨"west"⟩] },
    .register { Connector.universal ⟨"a"⟩ with clusters := [⟨"east"⟩] }]

/-- The connector of one of the clusters is attached to a third one, which is recorded
    with it, and the read of the two clusters is dispatched as before. -/
theorem north_elsewhere :
    Catalog.Change.Elsewhere joinedRead.clusters oneEach (.attach ⟨"north"⟩ ⟨"a"⟩) ∧
      (Catalog.after (.attach ⟨"north"⟩ ⟨"a"⟩ :: oneEach)).servedBy ⟨"a"⟩
        = [⟨"east"⟩, ⟨"north"⟩] ∧
      ∃ p p', (plan (Catalog.after oneEach).registry .default
          ⟨⟨"q"⟩, ⟨"shop"⟩, .select joinedRead⟩).value = .ok p ∧
        (plan (Catalog.after (.attach ⟨"north"⟩ ⟨"a"⟩ :: oneEach)).registry .default
          ⟨⟨"q"⟩, ⟨"shop"⟩, .select joinedRead⟩).value = .ok p' ∧
        p.text = p'.text ∧ p.units = p'.units := by
  have helsewhere : Catalog.Change.Elsewhere joinedRead.clusters oneEach
      (.attach ⟨"north"⟩ ⟨"a"⟩) := by
    show (⟨"north"⟩ : ClusterName) ∉ joinedRead.clusters
    decide
  refine ⟨helsewhere, by decide, ?_⟩
  have hplan : ∃ p, (plan (Catalog.after oneEach).registry .default
      ⟨⟨"q"⟩, ⟨"shop"⟩, .select joinedRead⟩).value = .ok p := ⟨_, rfl⟩
  rcases planned_elsewhere .default ⟨"q"⟩ ⟨"shop"⟩ joinedRead oneEach
    (.attach ⟨"north"⟩ ⟨"a"⟩) helsewhere with ⟨e, he, _⟩ | ⟨p, p', hp, hp', _, htext, hunits⟩
  · rcases hplan with ⟨p, hp⟩
    rw [hp] at he
    cases he
  · exact ⟨p, p', hp, hp', htext, hunits⟩

end Federation
