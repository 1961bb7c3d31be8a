import Federation.Proofs.Planner.Native
import Federation.Proofs.Registry.Capture

/-!
# Who Can Execute a Part

A part is narrowed join by join, but what is left in the end is told by the whole:
a connector is listed for a part if it is listed for the scans that feed it and
can run the stretches that feed it. The two directions need different things.

Towards the part, one connector that is listed at every scan and can run every
stretch survives each narrowing. Back from the part, a listed connector has come
down the left side of each join; for what came down the right side another copy
of it, of the same name, was found. So what a listed connector covers, it covers
through copies.

## Main definitions

* `Covers`: A connector is listed for a stretch and can run it.

## Theorems

* `part_covers`: A connector of a part covers what feeds the part, in some copy.
* `part_complete`: A connector that covers what feeds a part is one of the part.
* `mem_part`: The connectors of a part, where names are not ambiguous.
* `part_names`: The names of a join are names on both of its sides.
* `part_tables`, `part_connectors`: A part has tables and connectors.
-/

namespace Federation

/-- A connector that is listed, for a scan on the home of its table, and can run a
    stretch. -/
structure Covers (s : Snapshot) (w : Workflow) (t : Nat) (c : Connector) : Prop where
  listed : s.Lists c
  runs : w.canRunAll (w.stretch t) c = true
  home : t ∈ w.scans → c ∈ s.connectorsOf (w.home t)

-- The connectors of a branch cover its scan.
theorem covers_scan (s : Snapshot) (w : Workflow) (t : Nat) (c : Connector)
    (hc : c ∈ branchConnectors s w t) : Covers s w t c := by
  rcases List.mem_filter.mp hc with ⟨hlisted, hrun⟩
  exact ⟨⟨_, hlisted⟩, hrun, fun _ => hlisted⟩

-- A connector that has the name of another, where names are compared.
theorem mem_sharedWith (others connectors : List Connector) (c : Connector) :
    c ∈ sharedWith others connectors ↔ c ∈ connectors ∧ ∃ o ∈ others, o.name = c.name := by
  unfold sharedWith
  rw [List.mem_filter, List.any_eq_true]
  exact and_congr_right fun _ => exists_congr fun o => and_congr_right fun _ => beq_iff_eq

theorem mem_joined (w : Workflow) (join : Nat) (left right : Fragment) (c : Connector) :
    c ∈ (joined w join left right).connectors ↔
      c ∈ left.connectors ∧ (∃ o ∈ right.connectors, o.name = c.name) ∧
        w.canRunAll (w.stretch join) c = true := by
  show c ∈ (sharedWith right.connectors left.connectors).filter _ ↔ _
  rw [List.mem_filter, mem_sharedWith, and_assoc]

/-- Every connector of a part is listed and covers, in some copy, what feeds it. -/
theorem part_covers (s : Snapshot) (w : Workflow) : ∀ t ∈ w.starts, ∀ f,
    partOf? s w t = some f → ∀ c ∈ f.connectors, s.Lists c ∧
      ∀ u ∈ w.starts, w.Feeds u t → ∃ d, d.name = c.name ∧ Covers s w u d := by
  refine Workflow.start_induction w (fun t ht f hf c hc => ?_)
    (fun j hj left right hpair hl hr f hf c hc => ?_)
  · rw [partOf?_scan s w t ht, Option.some.injEq] at hf
    rw [← hf] at hc
    have hcovers := covers_scan s w t c hc
    refine ⟨hcovers.listed, fun u hu hfeeds => ⟨c, rfl, ?_⟩⟩
    rw [Workflow.feeds_scan w u t hu ht hfeeds]
    exact hcovers
  · rcases (partOf?_join s w j left right hj hpair f).mp hf with ⟨a, b, ⟨ha, hb⟩, _, rfl⟩
    rcases (mem_joined w j a b c).mp hc with ⟨hca, ⟨o, ho, hname⟩, hrun⟩
    rcases hl a ha c hca with ⟨hlisted, hleft⟩
    refine ⟨hlisted, fun u hu hfeeds => ?_⟩
    rcases Workflow.feeds_cases w u j hu hfeeds with rfl | ⟨v, hv, hfeeds⟩
    · -- The join itself is run by the connector that came down the left side.
      exact ⟨c, rfl, hlisted, hrun, fun hscan =>
        absurd hj (Graph.not_mem_joins_of_mem_scans _ u hscan)⟩
    · rw [hpair, List.mem_pair] at hv
      rcases hv with rfl | rfl
      · exact hleft u hu hfeeds
      · rcases (hr b hb o ho).2 u hu hfeeds with ⟨d, hd, hcovers⟩
        exact ⟨d, by rw [hd, hname], hcovers⟩

/-- A connector that is listed at every scan that feeds a part, and can run every stretch
    that does, is left there. -/
theorem part_complete (s : Snapshot) (w : Workflow) (c : Connector) : ∀ t ∈ w.starts,
    (∀ u ∈ w.scans, w.Feeds u t → c ∈ s.connectorsOf (w.home u)) →
      (∀ u ∈ w.starts, w.Feeds u t → w.canRunAll (w.stretch u) c = true) →
        ∃ f, partOf? s w t = some f ∧ c ∈ f.connectors := by
  refine Workflow.start_induction w (fun t ht hlisted hrun => ?_)
    (fun j hj left right hpair hl hr hlisted hrun => ?_)
  · have hstart := Workflow.mem_starts_of_scan w t ht
    exact ⟨_, partOf?_scan s w t ht, List.mem_filter.mpr
      ⟨hlisted t ht Relation.ReflTransGen.refl, hrun t hstart Relation.ReflTransGen.refl⟩⟩
  · -- What feeds one of the two stretches that lead to a join feeds the join.
    have hside : ∀ v ∈ [left, right], ∀ u, w.Feeds u v → w.Feeds u j := fun v hv u hu => by
      rw [← hpair] at hv
      exact hu.tail ((Workflow.mem_feeders w j v).mp hv).2
    have hleft := hside left List.mem_cons_self
    have hright := hside right (List.mem_cons_of_mem _ List.mem_cons_self)
    rcases hl (fun u hu hf => hlisted u hu (hleft u hf)) (fun u hu hf => hrun u hu (hleft u hf))
      with ⟨a, ha, hca⟩
    rcases hr (fun u hu hf => hlisted u hu (hright u hf)) (fun u hu hf => hrun u hu (hright u hf))
      with ⟨b, hb, hcb⟩
    have hstart := Workflow.mem_starts_of_join w j hj
    have hmem := (mem_joined w j a b c).mpr
      ⟨hca, ⟨c, hcb, rfl⟩, hrun j hstart Relation.ReflTransGen.refl⟩
    refine ⟨joined w j a b, ?_, hmem⟩
    rw [partOf?_join s w j left right hj hpair]
    exact ⟨a, b, ⟨ha, hb⟩, List.ne_nil_of_mem hmem, rfl⟩

/-- With one definition for each name the connectors of a part are those that are listed at
    every scan that feeds it and can run every stretch that does. -/
theorem mem_part (s : Snapshot) (w : Workflow) (hone : s.OneDefinition) (t : Nat)
    (ht : t ∈ w.starts) (c : Connector) :
    (∃ f, partOf? s w t = some f ∧ c ∈ f.connectors) ↔
      (∀ u ∈ w.scans, w.Feeds u t → c ∈ s.connectorsOf (w.home u)) ∧
        ∀ u ∈ w.starts, w.Feeds u t → w.canRunAll (w.stretch u) c = true := by
  constructor
  · rintro ⟨f, hf, hc⟩
    rcases part_covers s w t ht f hf c hc with ⟨hlisted, hcovers⟩
    -- The copies that were found on the way are the connector itself.
    have hself : ∀ u ∈ w.starts, w.Feeds u t → Covers s w u c := fun u hu hfeeds => by
      rcases hcovers u hu hfeeds with ⟨d, hname, hd⟩
      rw [hone c d hlisted hd.listed hname.symm]
      exact hd
    refine ⟨fun u hu hfeeds => ?_, fun u hu hfeeds => (hself u hu hfeeds).runs⟩
    exact (hself u (Workflow.mem_starts_of_scan w u hu) hfeeds).home hu
  · rintro ⟨hlisted, hrun⟩
    exact part_complete s w c t ht hlisted hrun

/-- A part reads some table. -/
theorem part_tables (s : Snapshot) (w : Workflow) : ∀ t ∈ w.starts, ∀ f,
    partOf? s w t = some f → f.tables ≠ [] := by
  refine Workflow.start_induction w (fun t ht f hf => ?_)
    (fun j hj left right hpair hl _ f hf => ?_)
  · rw [partOf?_scan s w t ht, Option.some.injEq] at hf
    rw [← hf]
    exact List.cons_ne_nil _ _
  · rcases (partOf?_join s w j left right hj hpair f).mp hf with ⟨a, b, ⟨ha, _⟩, _, rfl⟩
    rcases List.exists_mem_of_ne_nil _ (hl a ha) with ⟨table, htable⟩
    exact List.ne_nil_of_mem (mem_ascending.mpr (List.mem_append_left _ htable))

/-- A part leads where its scan or join does. -/
theorem part_downstream (s : Snapshot) (w : Workflow) (t : Nat) (ht : t ∈ w.starts)
    (f : Fragment) (hf : partOf? s w t = some f) : f.downstream = w.downstream t := by
  rcases (Workflow.mem_starts w t).mp ht with hscan | hjoin
  · rw [partOf?_scan s w t hscan, Option.some.injEq] at hf
    rw [← hf]
    rfl
  · rw [partOf?_lookup s w t hjoin] at hf
    exact (natives_spec s w).downstream (t, f) (mem_of_lookup _ t f hf)

/-- Every name of a native join is a name of both parts that lead to it. -/
theorem part_names (s : Snapshot) (w : Workflow) (join : Nat) (hjoin : join ∈ w.joins)
    (f : Fragment) (hf : partOf? s w join = some f) (c : Connector) (hc : c ∈ f.connectors) :
    ∀ t ∈ w.feeders join, ∃ g, partOf? s w t = some g ∧ ∃ o ∈ g.connectors, o.name = c.name := by
  rcases Workflow.feeders_pair w join hjoin with ⟨a, b, hpair⟩
  rcases (partOf?_join s w join a b hjoin hpair f).mp hf with
    ⟨left, right, ⟨hleft, hright⟩, _, rfl⟩
  rcases (mem_joined w join left right c).mp hc with ⟨hcl, hcr, _⟩
  intro t ht
  rw [hpair, List.mem_pair] at ht
  rcases ht with rfl | rfl
  · exact ⟨left, hleft, c, hcl, rfl⟩
  · exact ⟨right, hright, hcr⟩

/-- A part has connectors if every scan has. -/
theorem part_connectors (s : Snapshot) (w : Workflow)
    (hscans : ∀ t ∈ w.scans, branchConnectors s w t ≠ []) (t : Nat) (ht : t ∈ w.starts)
    (f : Fragment) (hf : partOf? s w t = some f) : f.connectors ≠ [] := by
  rcases (Workflow.mem_starts w t).mp ht with hscan | hjoin
  · rw [partOf?_scan s w t hscan, Option.some.injEq] at hf
    rw [← hf]
    exact hscans t hscan
  · rcases Workflow.feeders_pair w t hjoin with ⟨a, b, hpair⟩
    rcases (partOf?_join s w t a b hjoin hpair f).mp hf with ⟨_, _, _, hne, rfl⟩
    exact hne

end Federation
