import Federation.Registry.Catalog

/-!
# One Record of Attachments, Kept Twice

The catalog writes down with each connector which clusters it serves and with each
cluster which connectors are attached to it, and five calls change the two records
in five ways. That they always agree is not visible in any of them: registration
goes through the clusters a connector served before together with those it names
now, and removal clears only the clusters that the connector's own record has.

What a call does is therefore said once, in a form that is the same for all: for
each cluster there is at most one connector that the call asks to be attached there,
and at most one whose attachment it ends. Both records follow these two, and so
each stays the other's mirror.

## Main definitions

* `Catalog.Change.joining?`, `Catalog.Change.leaving?`: Whom a call concerns.
* `Catalog.Change.definition?`, `Catalog.Change.served`: What a call makes of a connector.
* `Catalog.servedBy`: The clusters recorded with a connector.
* `Catalog.Consistent`: The two records agree.

## Theorems

* `servedBy_perform`, `mem_served`: What a call does to the record of a connector.
* `attachedTo_perform`: What a call does to the record of a cluster.
* `get?_perform`: What it does to the definition of a connector.
* `perform_eq_error`: When a call is refused.
* `consistent_perform`, `consistent_after`: The records agree after every call.
-/

namespace Federation

section AddLast

variable {α : Type} [BEq α] [LawfulBEq α]

theorem addLast_of_mem (l : List α) (a : α) (h : a ∈ l) : addLast l a = l :=
  if_pos (List.contains_iff_mem.mpr h)

theorem addLast_of_not_mem (l : List α) (a : α) (h : a ∉ l) : addLast l a = l ++ [a] :=
  if_neg fun hc => h (List.contains_iff_mem.mp hc)

@[simp] theorem mem_addLast (l : List α) (a b : α) : b ∈ addLast l a ↔ b ∈ l ∨ b = a := by
  by_cases h : a ∈ l
  · rw [addLast_of_mem l a h]
    exact ⟨Or.inl, fun hb => hb.elim id fun hab => hab ▸ h⟩
  · rw [addLast_of_not_mem l a h, List.mem_append, List.mem_singleton]

-- What comes last need only fit the others.
theorem pairwise_addLast {R : α → α → Prop} (l : List α) (a : α) (hl : l.Pairwise R)
    (ha : a ∉ l → ∀ b ∈ l, R b a) : (addLast l a).Pairwise R := by
  by_cases h : a ∈ l
  · rw [addLast_of_mem l a h]
    exact hl
  · rw [addLast_of_not_mem l a h]
    refine List.pairwise_append.mpr ⟨hl, List.pairwise_singleton _ _, fun b hb x hx => ?_⟩
    rw [List.mem_singleton.mp hx]
    exact ha h b hb

theorem nodup_addLast (l : List α) (a : α) (h : l.Nodup) : (addLast l a).Nodup :=
  pairwise_addLast l a h fun ha _ hb hba => ha (hba ▸ hb)

theorem mem_foldl_addLast (l m : List α) (b : α) :
    b ∈ m.foldl addLast l ↔ b ∈ l ∨ b ∈ m := by
  induction m generalizing l with
  | nil => simp
  | cons a rest ih =>
      rw [List.foldl_cons, ih, mem_addLast, List.mem_cons, or_assoc]

theorem nodup_foldl_addLast (l m : List α) (h : l.Nodup) : (m.foldl addLast l).Nodup := by
  induction m generalizing l with
  | nil => exact h
  | cons a rest ih => exact ih _ (nodup_addLast l a h)

end AddLast

/-- A connector without the clusters it serves. -/
def Connector.unattached (c : Connector) : Connector := { c with clusters := [] }

namespace Connector

@[simp] theorem unattached_name (c : Connector) : c.unattached.name = c.name := rfl

@[simp] theorem unattached_text (c : Connector) : c.unattached.text = c.text := rfl

@[simp] theorem unattached_supports (c : Connector) (capability : Capability) :
    c.unattached.supports capability = c.supports capability := rfl

end Connector

namespace Catalog

/-- The connector that a call asks to be attached to a cluster. -/
def Change.joining? (cluster : ClusterName) : Catalog.Change → Option ConnectorName
  | .register connector => if cluster ∈ connector.clusters then some connector.name else none
  | .attach joined name => if joined = cluster then some name else none
  | .detach _ _ => none
  | .remove _ => none
  | .registerTable _ _ => none

/-- The connector whose attachment to a cluster a call ends. -/
def Change.leaving? (cluster : ClusterName) : Catalog.Change → Option ConnectorName
  | .register _ => none
  | .attach _ _ => none
  | .detach left name => if left = cluster then some name else none
  | .remove name => some name
  | .registerTable _ _ => none

/-- What a call makes of the definition under a name. -/
def Change.definition? (name : ConnectorName) (was : Option Connector) :
    Catalog.Change → Option Connector
  | .register connector => if connector.name = name then some connector else was
  | .attach _ _ => was
  | .detach _ _ => was
  | .remove gone => if gone = name then none else was
  | .registerTable _ _ => was

/-- What a call makes of the clusters that are recorded with a connector. -/
def Change.served (name : ConnectorName) (was : List ClusterName) :
    Catalog.Change → List ClusterName
  | .register connector =>
    if connector.name = name then connector.clusters.foldl addLast was else was
  | .attach joined n => if n = name then addLast was joined else was
  | .detach left n => if n = name then was.filter (· != left) else was
  | .remove gone => if gone = name then [] else was
  | .registerTable _ _ => was

/-- The clusters that are recorded with a connector. -/
def servedBy (c : Catalog) (name : ConnectorName) : List ClusterName :=
  ((c.connectors.get? name).map Connector.clusters).getD []

/-- Whether a catalog's two records of attachments agree. -/
structure Consistent (c : Catalog) : Prop where
  /-- A connector is kept under its own name. -/
  named : ∀ name d, c.connectors.get? name = some d → d.name = name
  /-- No cluster is recorded twice with a connector. -/
  served_nodup : ∀ name, (c.servedBy name).Nodup
  /-- No connector is recorded twice with a cluster. -/
  attached_nodup : ∀ cluster, (c.attachedTo cluster).Nodup
  /-- A cluster is recorded with a connector just if the connector is with it. -/
  served_iff : ∀ name cluster, cluster ∈ c.servedBy name ↔ name ∈ c.attachedTo cluster

/-! ### The record of a cluster -/

theorem attachedTo_write (c : Catalog) (cluster k : ClusterName) (l : List ConnectorName) :
    attachedTo { c with attachments := c.attachments.insert cluster l } k
      = if k = cluster then l else c.attachedTo k := by
  unfold attachedTo
  rw [SortedMap.get?_insert]
  split
  · rfl
  · rfl

theorem attachedTo_listAttachment (c : Catalog) (name : ConnectorName)
    (cluster k : ClusterName) :
    (c.listAttachment name cluster).attachedTo k
      = if k = cluster then addLast (c.attachedTo k) name else c.attachedTo k := by
  refine (attachedTo_write c cluster k _).trans ?_
  by_cases h : k = cluster
  · rw [h]
  · rw [if_neg h, if_neg h]

theorem attachedTo_strikeAttachment (c : Catalog) (name : ConnectorName)
    (cluster k : ClusterName) :
    (c.strikeAttachment name cluster).attachedTo k
      = if k = cluster then (c.attachedTo k).filter (· != name) else c.attachedTo k := by
  refine (attachedTo_write c cluster k _).trans ?_
  by_cases h : k = cluster
  · rw [h]
  · rw [if_neg h, if_neg h]

-- A change made to one cluster after another is made to each of them. It may come to a
-- cluster twice, and must then change nothing the second time.
theorem attachedTo_foldl (f : Catalog → ClusterName → Catalog)
    (g : List ConnectorName → List ConnectorName)
    (hf : ∀ c cluster k, (f c cluster).attachedTo k
      = if k = cluster then g (c.attachedTo k) else c.attachedTo k)
    (hg : ∀ l, g (g l) = g l) (clusters : List ClusterName) (c : Catalog) (k : ClusterName) :
    (clusters.foldl f c).attachedTo k
      = if k ∈ clusters then g (c.attachedTo k) else c.attachedTo k := by
  induction clusters generalizing c with
  | nil => rfl
  | cons cluster rest ih =>
      rw [List.foldl_cons, ih, hf]
      by_cases hk : k = cluster
      · by_cases hrest : k ∈ rest
        · rw [if_pos hrest, if_pos hk, if_pos (List.mem_cons_of_mem _ hrest), hg]
        · rw [if_neg hrest, if_pos hk, if_pos (hk ▸ List.mem_cons_self)]
      · rw [if_neg hk]
        simp only [List.mem_cons, hk, false_or]

-- The attachments are all that is written there.
theorem connectors_foldl (f : Catalog → ClusterName → Catalog)
    (hf : ∀ c cluster, (f c cluster).connectors = c.connectors) (clusters : List ClusterName)
    (c : Catalog) : (clusters.foldl f c).connectors = c.connectors := by
  induction clusters generalizing c with
  | nil => rfl
  | cons cluster rest ih => rw [List.foldl_cons, ih, hf]

/-! ### The calls one by one -/

theorem attachedTo_register (c : Catalog) (d : Connector) (k : ClusterName) :
    (c.register d).attachedTo k
      = if k ∈ d.clusters.foldl addLast (c.servedBy d.name)
        then addLast (c.attachedTo k) d.name else c.attachedTo k :=
  attachedTo_foldl _ (fun l => addLast l d.name)
    (fun c cluster k => attachedTo_listAttachment c d.name cluster k)
    (fun l => addLast_of_mem _ _ ((mem_addLast l _ _).mpr (Or.inr rfl))) _ c k

theorem get?_register (c : Catalog) (d : Connector) (name : ConnectorName) :
    (c.register d).connectors.get? name
      = if name = d.name
        then some { d with clusters := d.clusters.foldl addLast (c.servedBy d.name) }
        else c.connectors.get? name := by
  unfold register
  rw [SortedMap.get?_insert,
    connectors_foldl (fun c cluster => c.listAttachment d.name cluster) fun _ _ => rfl]
  rfl

-- What attaching and detaching give, where the connector is known.
theorem attach_eq_ok (c : Catalog) (cluster : ClusterName) (name : ConnectorName)
    (c' : Catalog) (h : c.attach cluster name = .ok c') :
    ∃ d, c.connectors.get? name = some d ∧
      (∀ n, c'.connectors.get? n = if n = name
        then some { d with clusters := addLast d.clusters cluster }
        else c.connectors.get? n) ∧
      ∀ k, c'.attachedTo k
        = if k = cluster then addLast (c.attachedTo k) name else c.attachedTo k := by
  unfold attach at h
  cases hd : c.connectors.get? name with
  | none =>
      rw [hd] at h
      cases h
  | some d =>
      rw [hd] at h
      cases h
      exact ⟨d, rfl, fun n => SortedMap.get?_insert _ _ _ _,
        attachedTo_listAttachment c name cluster⟩

theorem detach_eq_ok (c : Catalog) (cluster : ClusterName) (name : ConnectorName)
    (c' : Catalog) (h : c.detach cluster name = .ok c') :
    ∃ d, c.connectors.get? name = some d ∧
      (∀ n, c'.connectors.get? n = if n = name
        then some { d with clusters := d.clusters.filter (· != cluster) }
        else c.connectors.get? n) ∧
      ∀ k, c'.attachedTo k
        = if k = cluster then (c.attachedTo k).filter (· != name) else c.attachedTo k := by
  unfold detach at h
  cases hd : c.connectors.get? name with
  | none =>
      rw [hd] at h
      cases h
  | some d =>
      rw [hd] at h
      cases h
      exact ⟨d, rfl, fun n => SortedMap.get?_insert _ _ _ _,
        attachedTo_strikeAttachment c name cluster⟩

theorem get?_remove (c : Catalog) (gone name : ConnectorName) :
    (c.remove gone).2.connectors.get? name
      = if name = gone then none else c.connectors.get? name := by
  unfold remove
  cases hd : c.connectors.get? gone with
  | none =>
      by_cases h : name = gone
      · rw [if_pos h, h]
        exact hd
      · rw [if_neg h]
  | some d =>
      show (SortedMap.erase _ gone).get? name = _
      rw [SortedMap.get?_erase,
        connectors_foldl (fun c cluster => c.strikeAttachment gone cluster) fun _ _ => rfl]

theorem attachedTo_remove (c : Catalog) (gone : ConnectorName) (k : ClusterName) :
    (c.remove gone).2.attachedTo k
      = if k ∈ c.servedBy gone then (c.attachedTo k).filter (· != gone)
        else c.attachedTo k := by
  unfold remove servedBy
  cases hd : c.connectors.get? gone with
  | none => rfl
  | some d =>
      refine attachedTo_foldl _ (fun l => l.filter (· != gone))
        (fun c cluster k => attachedTo_strikeAttachment c gone cluster k) (fun l => ?_) _ c k
      rw [List.filter_filter]
      simp only [Bool.and_self]

-- The connector is looked up before anything is written.
theorem attach_eq_error (c : Catalog) (cluster : ClusterName) (name : ConnectorName)
    (e : CatalogError) : c.attach cluster name = .error e ↔
      c.connectors.get? name = none ∧ e = .unknownConnector name := by
  unfold attach
  cases c.connectors.get? name with
  | none => simp [eq_comm]
  | some d => simp

theorem detach_eq_error (c : Catalog) (cluster : ClusterName) (name : ConnectorName)
    (e : CatalogError) : c.detach cluster name = .error e ↔
      c.connectors.get? name = none ∧ e = .unknownConnector name := by
  unfold detach
  cases c.connectors.get? name with
  | none => simp [eq_comm]
  | some d => simp

/-! ### Any call -/

/-- Only attaching and detaching are ever refused, for want of the connector. -/
theorem perform_eq_error (c : Catalog) (call : Change) (e : CatalogError) :
    c.perform call = .error e ↔ ∃ cluster name,
      (call = .attach cluster name ∨ call = .detach cluster name) ∧
        c.connectors.get? name = none ∧ e = .unknownConnector name := by
  constructor
  · intro h
    cases call with
    | attach cluster name =>
        exact ⟨cluster, name, Or.inl rfl, (attach_eq_error c cluster name e).mp h⟩
    | detach cluster name =>
        exact ⟨cluster, name, Or.inr rfl, (detach_eq_error c cluster name e).mp h⟩
    | register _ => cases h
    | remove _ => cases h
    | registerTable _ _ => cases h
  · rintro ⟨cluster, name, rfl | rfl, h⟩
    · exact (attach_eq_error c cluster name e).mpr h
    · exact (detach_eq_error c cluster name e).mpr h

/-- A call changes what is known of a connector only by registering or removing it. -/
theorem get?_perform (c c' : Catalog) (call : Change) (h : c.perform call = .ok c')
    (name : ConnectorName) :
    (c'.connectors.get? name).map Connector.unattached
      = (call.definition? name (c.connectors.get? name)).map Connector.unattached := by
  cases call with
  | register d =>
      cases h
      rw [get?_register]
      by_cases hn : name = d.name
      · simp [Change.definition?, hn, Connector.unattached]
      · simp [Change.definition?, hn, Ne.symm hn]
  | attach joined n =>
      rcases attach_eq_ok c joined n c' h with ⟨d, hd, hget, _⟩
      rw [hget]
      by_cases hn : name = n
      · simp [Change.definition?, hn, hd, Connector.unattached]
      · simp [Change.definition?, hn]
  | detach left n =>
      rcases detach_eq_ok c left n c' h with ⟨d, hd, hget, _⟩
      rw [hget]
      by_cases hn : name = n
      · simp [Change.definition?, hn, hd, Connector.unattached]
      · simp [Change.definition?, hn]
  | remove gone =>
      cases h
      rw [get?_remove]
      by_cases hn : name = gone
      · simp [Change.definition?, hn]
      · simp [Change.definition?, hn, Ne.symm hn]
  | registerTable _ _ =>
      cases h
      rfl

-- What is served is read off what is known.
theorem servedBy_eq (c : Catalog) (name : ConnectorName) (d? : Option Connector)
    (h : c.connectors.get? name = d?) :
    c.servedBy name = (d?.map Connector.clusters).getD [] := by
  unfold servedBy
  rw [h]

/-- What a call does to the record of a connector. -/
theorem servedBy_perform (c c' : Catalog) (call : Change) (h : c.perform call = .ok c')
    (name : ConnectorName) : c'.servedBy name = call.served name (c.servedBy name) := by
  cases call with
  | register d =>
      cases h
      rw [servedBy_eq _ _ _ (get?_register c d name)]
      by_cases hn : name = d.name
      · simp [Change.served, hn]
      · simp [Change.served, hn, Ne.symm hn, servedBy]
  | attach joined n =>
      rcases attach_eq_ok c joined n c' h with ⟨d, hd, hget, _⟩
      rw [servedBy_eq _ _ _ (hget name)]
      by_cases hn : name = n
      · simp [Change.served, hn, servedBy, hd]
      · simp [Change.served, hn, Ne.symm hn, servedBy]
  | detach left n =>
      rcases detach_eq_ok c left n c' h with ⟨d, hd, hget, _⟩
      rw [servedBy_eq _ _ _ (hget name)]
      by_cases hn : name = n
      · simp [Change.served, hn, servedBy, hd]
      · simp [Change.served, hn, Ne.symm hn, servedBy]
  | remove gone =>
      cases h
      rw [servedBy_eq _ _ _ (get?_remove c gone name)]
      by_cases hn : name = gone
      · simp [Change.served, hn]
      · simp [Change.served, hn, Ne.symm hn, servedBy]
  | registerTable _ _ =>
      cases h
      rfl

/-- A cluster stays with a connector until a call ends that, and comes to it when a
    call asks for it. -/
theorem mem_served (call : Change) (name : ConnectorName) (was : List ClusterName)
    (k : ClusterName) :
    k ∈ call.served name was ↔ (k ∈ was ∧ call.leaving? k ≠ some name) ∨
      call.joining? k = some name := by
  cases call with
  | register d =>
      by_cases hn : d.name = name
      · simp [Change.served, Change.joining?, Change.leaving?, hn, mem_foldl_addLast]
      · simp [Change.served, Change.joining?, Change.leaving?, hn]
  | attach joined n =>
      by_cases hn : n = name
      · simp [Change.served, Change.joining?, Change.leaving?, hn, eq_comm]
      · simp [Change.served, Change.joining?, Change.leaving?, hn]
  | detach left n =>
      by_cases hn : n = name
      · simp [Change.served, Change.joining?, Change.leaving?, hn, @eq_comm _ k left]
      · simp [Change.served, Change.joining?, Change.leaving?, hn]
  | remove gone =>
      by_cases hn : gone = name
      · simp [Change.served, Change.joining?, Change.leaving?, hn]
      · simp [Change.served, Change.joining?, Change.leaving?, hn]
  | registerTable _ _ => simp [Change.served, Change.joining?, Change.leaving?]

-- The record of a connector is lengthened by what it lacks and otherwise shortened.
theorem nodup_served (call : Change) (name : ConnectorName) (was : List ClusterName)
    (h : was.Nodup) : (call.served name was).Nodup := by
  have hif : ∀ (p : Prop) [Decidable p] (l : List ClusterName), l.Nodup →
      (if p then l else was).Nodup := fun p _ l hl => by
    split
    · exact hl
    · exact h
  cases call with
  | register d => exact hif _ _ (nodup_foldl_addLast _ _ h)
  | attach joined n => exact hif _ _ (nodup_addLast _ _ h)
  | detach left n => exact hif _ _ (h.filter _)
  | remove gone => exact hif _ _ List.Pairwise.nil
  | registerTable _ _ => exact h

-- Who stays when one leaves, and when none does.
theorem filter_ne_some (l : List ConnectorName) (gone : ConnectorName) :
    l.filter (fun name => some name != some gone) = l.filter (· != gone) :=
  List.filter_congr fun name _ => by simp [bne]

theorem filter_ne_none (l : List ConnectorName) :
    l.filter (fun name => some name != none) = l :=
  List.filter_eq_self.mpr fun name _ => bne_iff_ne.mpr (Option.some_ne_none name)

/-- A call strikes from the record of a cluster the connector whose attachment it ends,
    and writes at its end the one it asks to be attached, unless it is there. -/
theorem attachedTo_perform (c c' : Catalog) (call : Change) (hc : c.Consistent)
    (h : c.perform call = .ok c') (k : ClusterName) :
    c'.attachedTo k = (call.joining? k).toList.foldl addLast
      ((c.attachedTo k).filter fun name => some name != call.leaving? k) := by
  cases call with
  | register d =>
      cases h
      simp only [Change.leaving?]
      rw [attachedTo_register, filter_ne_none]
      by_cases hk : k ∈ d.clusters
      · simp [Change.joining?, mem_foldl_addLast, hk]
      · -- Where the connector was attached before it is not written again.
        by_cases hserved : k ∈ c.servedBy d.name
        · have hlisted := addLast_of_mem _ _ ((hc.served_iff d.name k).mp hserved)
          simp [Change.joining?, hk, hlisted]
        · simp [Change.joining?, mem_foldl_addLast, hk, hserved]
  | attach joined n =>
      rcases attach_eq_ok c joined n c' h with ⟨_, _, _, hattached⟩
      simp only [Change.leaving?]
      rw [hattached, filter_ne_none]
      by_cases hk : k = joined
      · simp [Change.joining?, hk]
      · simp [Change.joining?, hk, Ne.symm hk]
  | detach left n =>
      rcases detach_eq_ok c left n c' h with ⟨_, _, _, hattached⟩
      simp only [Change.joining?, Change.leaving?, Option.toList_none, List.foldl_nil]
      rw [hattached]
      by_cases hk : k = left
      · rw [if_pos hk, if_pos hk.symm, filter_ne_some]
      · rw [if_neg hk, if_neg (Ne.symm hk), filter_ne_none]
  | remove gone =>
      cases h
      simp only [Change.joining?, Change.leaving?, Option.toList_none, List.foldl_nil]
      rw [attachedTo_remove, filter_ne_some]
      by_cases hserved : k ∈ c.servedBy gone
      · rw [if_pos hserved]
      · -- Where the connector is not attached there is nothing to strike.
        rw [if_neg hserved]
        refine (List.filter_eq_self.mpr fun name hname => bne_iff_ne.mpr fun hgone => ?_).symm
        exact hserved ((hc.served_iff gone k).mpr (hgone ▸ hname))
  | registerTable _ _ =>
      cases h
      simp only [Change.joining?, Change.leaving?, Option.toList_none, List.foldl_nil]
      rw [filter_ne_none]
      rfl

theorem mem_attachedTo_perform (c c' : Catalog) (call : Change) (hc : c.Consistent)
    (h : c.perform call = .ok c') (name : ConnectorName) (k : ClusterName) :
    name ∈ c'.attachedTo k ↔ (name ∈ c.attachedTo k ∧ call.leaving? k ≠ some name) ∨
      call.joining? k = some name := by
  rw [attachedTo_perform c c' call hc h, mem_foldl_addLast, List.mem_filter, Option.mem_toList,
    bne_iff_ne, ne_comm]

-- A connector is defined under its own name if it was before.
theorem named_perform (c c' : Catalog) (call : Change) (h : c.perform call = .ok c')
    (hc : ∀ name d, c.connectors.get? name = some d → d.name = name) (name : ConnectorName)
    (d : Connector) (hd : c'.connectors.get? name = some d) : d.name = name := by
  have hdef := get?_perform c c' call h name
  rw [hd] at hdef
  rcases Option.map_eq_some_iff.mp hdef.symm with ⟨e, he, hbare⟩
  have hname : e.unattached.name = d.unattached.name := by rw [hbare]
  change e.name = d.name at hname
  rw [← hname]
  cases call with
  | register r =>
      by_cases hr : r.name = name
      · rw [Change.definition?, if_pos hr] at he
        exact Option.some.inj he ▸ hr
      · rw [Change.definition?, if_neg hr] at he
        exact hc name e he
  | remove gone =>
      by_cases hgone : gone = name
      · rw [Change.definition?, if_pos hgone] at he
        cases he
      · rw [Change.definition?, if_neg hgone] at he
        exact hc name e he
  | attach _ _ => exact hc name e he
  | detach _ _ => exact hc name e he
  | registerTable _ _ => exact hc name e he

/-- A call leaves the two records in agreement: both follow the connector it asks to be
    attached and the one whose attachment it ends. -/
theorem consistent_perform (c c' : Catalog) (call : Change) (hc : c.Consistent)
    (h : c.perform call = .ok c') : c'.Consistent where
  named := named_perform c c' call h hc.named
  served_nodup name := by
    rw [servedBy_perform c c' call h]
    exact nodup_served call name _ (hc.served_nodup name)
  attached_nodup k := by
    rw [attachedTo_perform c c' call hc h]
    exact nodup_foldl_addLast _ _ ((hc.attached_nodup k).filter _)
  served_iff name k := by
    rw [servedBy_perform c c' call h, mem_served, mem_attachedTo_perform c c' call hc h,
      hc.served_iff]

/-- The two records agree after any calls. -/
theorem consistent_after (calls : List Change) : (after calls).Consistent := by
  induction calls with
  | nil =>
      exact ⟨fun _ _ h => (nomatch h), fun _ => List.Pairwise.nil, fun _ => List.Pairwise.nil,
        fun _ _ => ⟨fun h => (nomatch h), fun h => (nomatch h)⟩⟩
  | cons call past ih =>
      unfold after
      split
      · exact consistent_perform _ _ call ih (by assumption)
      · exact ih

end Catalog

end Federation
