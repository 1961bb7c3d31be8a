import Federation.Proofs.Registry.Attachments
import Mathlib.Data.List.Basic

/-!
# A Catalog Is Its History

What a catalog answers can be read off the calls that were made to it, without the
two records it keeps. A connector is what it was last registered as, unless it has
been removed since. Its attachment to a cluster begins with the call that asks for
it, and only detaching it from there or removing it ends that: registering it again
neither ends an attachment nor begins another. The connectors of a cluster are those
attached there now, and they are listed in the order in which the attachments that
still last were begun.

Calls are given latest first, so a call is numbered by how many came before it.

## Main definitions

* `Catalog.registeredAs?`: What calls leave under a name.
* `Catalog.attachedSince?`: The call with which an attachment began.
* `Catalog.AttachedBefore`: Which of two attachments began first.
* `Catalog.Follows`: A catalog holds what calls say.
* `Catalog.AttachedNow`: The connectors that calls leave attached to a cluster.

## Theorems

* `follows_perform`, `follows_refused`: Each call keeps a catalog with its history.
* `follows_after`: So do any calls.
* `connectorsOf_names`: A cluster lists the connectors that its record names.
* `attachedNow_after`: They are those attached now, in order.
* `after_refines`: What a catalog answers after any calls.
-/

namespace Federation

namespace Catalog

/-- What calls leave under a name: its last registration, unless it has been removed
    since. -/
def registeredAs? (name : ConnectorName) : List Change → Option Connector
  | [] => none
  | call :: past => call.definition? name (registeredAs? name past)

/-- The number of the call with which the attachment of a connector to a cluster began,
    if the connector is attached there. A call begins an attachment only for a
    connector that is registered then and not attached yet. -/
def attachedSince? (name : ConnectorName) (cluster : ClusterName) : List Change → Option Nat
  | [] => none
  | call :: past =>
    if call.leaving? cluster = some name then none
    else (attachedSince? name cluster past).or
      (if call.joining? cluster = some name ∧ (registeredAs? name (call :: past)).isSome
        then some past.length else none)

/-- Whether one connector's attachment to a cluster began before another's. -/
def AttachedBefore (calls : List Change) (cluster : ClusterName) (n m : ConnectorName) : Prop :=
  ∃ i j, attachedSince? n cluster calls = some i ∧ attachedSince? m cluster calls = some j ∧
    i < j

/-- Whether a catalog holds what calls say. -/
structure Follows (c : Catalog) (calls : List Change) : Prop where
  /-- Its two records agree. -/
  consistent : c.Consistent
  /-- It knows of a connector what was last registered, but for the clusters. -/
  defined : ∀ name, (c.connectors.get? name).map Connector.unattached
    = (registeredAs? name calls).map Connector.unattached
  /-- It records the attachments that last. -/
  current : ∀ name cluster,
    name ∈ c.attachedTo cluster ↔ (attachedSince? name cluster calls).isSome
  /-- It records them in the order in which they began. -/
  ordered : ∀ cluster, (c.attachedTo cluster).Pairwise (AttachedBefore calls cluster)

/-- Whether connectors are those that calls leave attached to a cluster, in order. -/
structure AttachedNow (calls : List Change) (cluster : ClusterName) (l : List Connector) :
    Prop where
  /-- Those whose attachment lasts are listed. -/
  current : ∀ name, name ∈ l.map Connector.name ↔ attachedSince? name cluster calls ≠ none
  /-- Each is listed as it was last registered, but for the clusters. -/
  defined : ∀ c ∈ l, ∃ d, registeredAs? c.name calls = some d ∧ c.unattached = d.unattached
  /-- They are listed by the beginning of their attachment, and so each once. -/
  ordered : l.Pairwise fun c d => AttachedBefore calls cluster c.name d.name

-- An attachment began with one of the calls made.
theorem attachedSince?_lt (name : ConnectorName) (cluster : ClusterName)
    (calls : List Change) (i : Nat) (h : attachedSince? name cluster calls = some i) :
    i < calls.length := by
  induction calls with
  | nil => cases h
  | cons call past ih =>
      unfold attachedSince? at h
      rw [List.length_cons]
      split at h
      · cases h
      · rcases Option.or_eq_some_iff.mp h with hpast | ⟨_, hnew⟩
        · exact Nat.lt_succ_of_lt (ih hpast)
        · split at hnew
          · cases hnew
            exact Nat.lt_succ_self _
          · cases hnew

-- While an attachment lasts the call that began it stays the same.
theorem attachedSince?_cons_of_some (call : Change) (past : List Change)
    (name : ConnectorName) (cluster : ClusterName) (i : Nat)
    (h : attachedSince? name cluster past = some i)
    (hstays : call.leaving? cluster ≠ some name) :
    attachedSince? name cluster (call :: past) = some i := by
  rw [attachedSince?, if_neg hstays, h]
  rfl

-- An attachment that is new has the number of the call.
theorem attachedSince?_new (call : Change) (past : List Change) (name : ConnectorName)
    (cluster : ClusterName) (hnone : attachedSince? name cluster past = none)
    (hnow : (attachedSince? name cluster (call :: past)).isSome) :
    attachedSince? name cluster (call :: past) = some past.length := by
  rw [attachedSince?, hnone, Option.none_or] at hnow ⊢
  by_cases hleaves : call.leaving? cluster = some name
  · rw [if_pos hleaves] at hnow
    cases hnow
  · by_cases hjoins : call.joining? cluster = some name ∧
        (registeredAs? name (call :: past)).isSome
    · rw [if_neg hleaves, if_pos hjoins]
    · rw [if_neg hleaves, if_neg hjoins] at hnow
      cases hnow

-- The order of attachments that last does not change.
theorem attachedBefore_cons (call : Change) (past : List Change) (cluster : ClusterName)
    (n m : ConnectorName) (h : AttachedBefore past cluster n m)
    (hn : call.leaving? cluster ≠ some n) (hm : call.leaving? cluster ≠ some m) :
    AttachedBefore (call :: past) cluster n m := by
  rcases h with ⟨i, j, hi, hj, hij⟩
  exact ⟨i, j, attachedSince?_cons_of_some call past n cluster i hi hn,
    attachedSince?_cons_of_some call past m cluster j hj hm, hij⟩

-- No call both asks for an attachment and ends one.
theorem leaving?_eq_none_of_joining? (call : Change) (cluster : ClusterName)
    (name : ConnectorName) (h : call.joining? cluster = some name) :
    call.leaving? cluster = none := by
  cases call with
  | register _ => rfl
  | attach _ _ => rfl
  | detach _ _ => cases h
  | remove _ => cases h
  | registerTable _ _ => cases h

-- The definition of a connector after a call depends only on the one before.
theorem definition?_congr (call : Change) (name : ConnectorName) (x y : Option Connector)
    (h : x.map Connector.unattached = y.map Connector.unattached) :
    (call.definition? name x).map Connector.unattached
      = (call.definition? name y).map Connector.unattached := by
  cases call with
  | register d =>
      by_cases hd : d.name = name
      · simp only [Change.definition?, if_pos hd]
      · simp only [Change.definition?, if_neg hd, h]
  | remove gone =>
      by_cases hgone : gone = name
      · simp only [Change.definition?, if_pos hgone]
      · simp only [Change.definition?, if_neg hgone, h]
  | attach _ _ => exact h
  | detach _ _ => exact h
  | registerTable _ _ => exact h

-- What a catalog records with a cluster is registered with it.
theorem Consistent.registered {c : Catalog} (hc : c.Consistent) (name : ConnectorName)
    (cluster : ClusterName) (h : name ∈ c.attachedTo cluster) :
    ∃ d, c.connectors.get? name = some d := by
  have hserved := (hc.served_iff name cluster).mpr h
  cases hd : c.connectors.get? name with
  | none =>
      rw [servedBy_eq c name _ hd] at hserved
      exact absurd hserved List.not_mem_nil
  | some d => exact ⟨d, rfl⟩

-- What is known and what was registered are there together.
theorem isSome_of_defined (x y : Option Connector)
    (h : x.map Connector.unattached = y.map Connector.unattached) : x.isSome = y.isSome := by
  have hsome := congrArg Option.isSome h
  rw [Option.isSome_map, Option.isSome_map] at hsome
  exact hsome

theorem Follows.get?_eq_none_iff {c : Catalog} {calls : List Change} (hc : c.Follows calls)
    (name : ConnectorName) : c.connectors.get? name = none ↔ registeredAs? name calls = none := by
  rw [← Option.not_isSome_iff_eq_none, ← Option.not_isSome_iff_eq_none,
    isSome_of_defined _ _ (hc.defined name)]

theorem Follows.attachedSince?_eq_none {c : Catalog} {calls : List Change} (hc : c.Follows calls)
    (name : ConnectorName) (cluster : ClusterName) (h : name ∉ c.attachedTo cluster) :
    attachedSince? name cluster calls = none := by
  rw [← Option.not_isSome_iff_eq_none]
  exact mt (hc.current name cluster).mpr h

/-- What is attached after a call, by its history. -/
theorem current_perform (c c' : Catalog) (call : Change) (past : List Change)
    (hc : c.Follows past) (h : c.perform call = .ok c') (name : ConnectorName)
    (cluster : ClusterName) (hknown : name ∈ c'.attachedTo cluster →
      (registeredAs? name (call :: past)).isSome) :
    name ∈ c'.attachedTo cluster ↔ (attachedSince? name cluster (call :: past)).isSome := by
  have hmem := mem_attachedTo_perform c c' call hc.consistent h name cluster
  rw [hmem, hc.current] at hknown ⊢
  rw [attachedSince?]
  by_cases hleaves : call.leaving? cluster = some name
  · have hnot : call.joining? cluster ≠ some name := fun hjoin => by
      rw [leaving?_eq_none_of_joining? call cluster name hjoin] at hleaves
      cases hleaves
    simp [hleaves, hnot]
  · rw [if_neg hleaves, Option.isSome_or, Bool.or_eq_true]
    refine or_congr ⟨fun h => h.1, fun h => ⟨h, hleaves⟩⟩ ⟨fun hjoin => ?_, fun hnew => ?_⟩
    · rw [if_pos ⟨hjoin, hknown (Or.inr hjoin)⟩]
      rfl
    · by_cases hjoin : call.joining? cluster = some name ∧
          (registeredAs? name (call :: past)).isSome
      · exact hjoin.1
      · rw [if_neg hjoin] at hnew
        cases hnew

/-- The connector that a call attaches comes last, and the order of the others stays. -/
theorem ordered_perform (c c' : Catalog) (call : Change) (past : List Change)
    (hc : c.Follows past) (h : c.perform call = .ok c') (cluster : ClusterName)
    (hcurrent : ∀ name, name ∈ c'.attachedTo cluster →
      (attachedSince? name cluster (call :: past)).isSome) :
    (c'.attachedTo cluster).Pairwise (AttachedBefore (call :: past) cluster) := by
  rw [attachedTo_perform c c' call hc.consistent h] at hcurrent ⊢
  -- What stays keeps its order.
  have hstays : ((c.attachedTo cluster).filter fun name => some name != call.leaving? cluster
      ).Pairwise (AttachedBefore (call :: past) cluster) := by
    refine ((hc.ordered cluster).filter _).imp_of_mem fun {n m} hn hm hbefore => ?_
    exact attachedBefore_cons call past cluster n m hbefore
      (Ne.symm (bne_iff_ne.mp (List.mem_filter.mp hn).2))
      (Ne.symm (bne_iff_ne.mp (List.mem_filter.mp hm).2))
  cases hjoin : call.joining? cluster with
  | none => exact hstays
  | some new =>
      have hleave := leaving?_eq_none_of_joining? call cluster new hjoin
      rw [hjoin] at hcurrent
      rw [hleave, filter_ne_none] at hcurrent hstays ⊢
      refine pairwise_addLast _ new hstays fun hnew n hn => ?_
      have hlast := attachedSince?_new call past new cluster
        (hc.attachedSince?_eq_none new cluster hnew)
        (hcurrent new ((mem_addLast _ _ _).mpr (Or.inr rfl)))
      rcases Option.isSome_iff_exists.mp ((hc.current n cluster).mp hn) with ⟨i, hi⟩
      have hstill := attachedSince?_cons_of_some call past n cluster i hi fun hn => by
        rw [hleave] at hn
        cases hn
      exact ⟨i, past.length, hstill, hlast, attachedSince?_lt n cluster past i hi⟩

/-- A call keeps a catalog with its history. -/
theorem follows_perform (c c' : Catalog) (call : Change) (past : List Change)
    (hc : c.Follows past) (h : c.perform call = .ok c') : c'.Follows (call :: past) := by
  have hconsistent := consistent_perform c c' call hc.consistent h
  have hdefined : ∀ name, (c'.connectors.get? name).map Connector.unattached
      = (registeredAs? name (call :: past)).map Connector.unattached := fun name =>
    (get?_perform c c' call h name).trans (definition?_congr call name _ _ (hc.defined name))
  have hcurrent : ∀ name cluster, name ∈ c'.attachedTo cluster ↔
      (attachedSince? name cluster (call :: past)).isSome := fun name cluster =>
    current_perform c c' call past hc h name cluster fun hname => by
      rw [← isSome_of_defined _ _ (hdefined name), Option.isSome_iff_exists]
      exact hconsistent.registered name cluster hname
  exact ⟨hconsistent, hdefined, hcurrent, fun cluster =>
    ordered_perform c c' call past hc h cluster fun name => (hcurrent name cluster).mp⟩

/-- A call that is refused is no part of the history either: it asks for what is not
    registered, or ends what has not begun. -/
theorem follows_refused (c : Catalog) (call : Change) (past : List Change) (e : CatalogError)
    (hc : c.Follows past) (h : c.perform call = .error e) : c.Follows (call :: past) := by
  rcases (perform_eq_error c call e).mp h with ⟨k, absent, hcall, hget, _⟩
  have hdefined : ∀ name, registeredAs? name (call :: past) = registeredAs? name past := by
    rcases hcall with rfl | rfl <;> exact fun _ => rfl
  have hunregistered := (hc.get?_eq_none_iff absent).mp hget
  have hsince : ∀ name cluster,
      attachedSince? name cluster (call :: past) = attachedSince? name cluster past := by
    intro name cluster
    rw [attachedSince?, hdefined]
    by_cases hname : name = absent
    · -- A connector that is not registered is attached nowhere.
      have hnone := hc.attachedSince?_eq_none absent cluster fun hmem => by
        rcases hc.consistent.registered absent cluster hmem with ⟨d, hd⟩
        rw [hget] at hd
        cases hd
      rw [hname, hnone, hunregistered]
      simp
    · have hother : call.leaving? cluster ≠ some name ∧ call.joining? cluster ≠ some name := by
        rcases hcall with rfl | rfl
        · by_cases hk : k = cluster <;>
            simp [Change.leaving?, Change.joining?, hk, Ne.symm hname]
        · by_cases hk : k = cluster <;>
            simp [Change.leaving?, Change.joining?, hk, Ne.symm hname]
      rw [if_neg hother.1, if_neg fun hjoin => hother.2 hjoin.1, Option.or_none]
  refine ⟨hc.consistent, fun name => ?_, fun name cluster => ?_, fun cluster => ?_⟩
  · rw [hdefined]
    exact hc.defined name
  · rw [hsince]
    exact hc.current name cluster
  · refine (hc.ordered cluster).imp fun {n m} hbefore => ?_
    unfold AttachedBefore
    rw [hsince, hsince]
    exact hbefore

/-- Any calls keep a catalog with its history. -/
theorem follows_after (calls : List Change) : (after calls).Follows calls := by
  induction calls with
  | nil =>
      exact ⟨consistent_after [], fun _ => rfl, fun _ _ => ⟨fun h => (nomatch h),
        fun h => (nomatch h)⟩, fun _ => List.Pairwise.nil⟩
  | cons call past ih =>
      unfold after
      split
      · exact follows_perform _ _ call past ih (by assumption)
      · exact follows_refused _ call past _ ih (by assumption)

/-- The connectors of a cluster are those that its record names, in its order. -/
theorem connectorsOf_names (c : Catalog) (hc : c.Consistent) (cluster : ClusterName) :
    (c.registry.connectorsOf cluster).map Connector.name = c.attachedTo cluster := by
  show ((c.attachedTo cluster).filterMap c.connectors.get?).map Connector.name = _
  rw [List.map_filterMap]
  refine (List.filterMap_congr fun name hname => ?_).trans List.filterMap_some
  rcases hc.registered name cluster hname with ⟨d, hd⟩
  rw [hd, Option.map_some, hc.named name d hd]

-- A connector that a cluster lists is the one under its name.
theorem get?_of_mem_connectorsOf (c : Catalog) (hc : c.Consistent) (cluster : ClusterName)
    (d : Connector) (h : d ∈ c.registry.connectorsOf cluster) :
    c.connectors.get? d.name = some d := by
  rcases List.mem_filterMap.mp h with ⟨name, _, hd⟩
  rw [hc.named name d hd]
  exact hd

/-- A cluster lists the connectors that the calls leave attached to it, in the order in
    which their attachments began. -/
theorem attachedNow_after (calls : List Change) (cluster : ClusterName) :
    AttachedNow calls cluster ((after calls).registry.connectorsOf cluster) := by
  have hc := follows_after calls
  have hnames := connectorsOf_names (after calls) hc.consistent cluster
  refine ⟨fun name => ?_, fun c hmem => ?_, ?_⟩
  · rw [hnames, hc.current, Option.isSome_iff_ne_none]
  · have hdefined := hc.defined c.name
    rw [get?_of_mem_connectorsOf _ hc.consistent cluster c hmem] at hdefined
    rcases Option.map_eq_some_iff.mp hdefined.symm with ⟨d, hd, hbare⟩
    exact ⟨d, hd, hbare.symm⟩
  · have hordered := hc.ordered cluster
    rw [← hnames, List.pairwise_map] at hordered
    exact hordered

/-- After any calls the two records of attachments agree, and all that they name is
    registered; a cluster lists the connectors whose attachments to it last, each once
    and as last registered, in the order in which the attachments began; and attaching
    and detaching are refused for a connector that is not registered, no call for
    another reason, and change nothing then. -/
theorem after_refines (calls : List Change) :
    (after calls).Consistent ∧
    (∀ cluster, ∀ name ∈ (after calls).attachedTo cluster,
      (after calls).connectors.get? name ≠ none) ∧
    (∀ cluster, AttachedNow calls cluster ((after calls).registry.connectorsOf cluster)) ∧
    (∀ call e, (after calls).perform call = .error e ↔ ∃ cluster name,
      (call = .attach cluster name ∨ call = .detach cluster name) ∧
        registeredAs? name calls = none ∧ e = .unknownConnector name) ∧
    ∀ call e, (after calls).perform call = .error e → after (call :: calls) = after calls := by
  have hc := follows_after calls
  refine ⟨hc.consistent, fun cluster name hname => ?_, attachedNow_after calls,
    fun call e => ?_, fun call e h => ?_⟩
  · rcases hc.consistent.registered name cluster hname with ⟨d, hd⟩
    rw [hd]
    exact Option.some_ne_none d
  · rw [perform_eq_error]
    simp only [hc.get?_eq_none_iff]
  · rw [after, h]

/-- An attachment that is ended and begun again goes to the end of the list, one that is
    asked for again stays where it is. -/
example :
    let scanner (name : String) : Connector := ⟨⟨name⟩, .ofList [.scan], [⟨"east"⟩], ⟨name⟩⟩
    let calls := [.attach ⟨"east"⟩ ⟨"a"⟩, .detach ⟨"east"⟩ ⟨"a"⟩, .register (scanner "b"),
      .register (scanner "c"), .register (scanner "b"), .register (scanner "a")]
    (after calls).attachedTo ⟨"east"⟩ = [⟨"b"⟩, ⟨"c"⟩, ⟨"a"⟩] := by
  decide

end Catalog

end Federation
