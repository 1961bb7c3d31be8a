import Federation.Proofs.Workflow.Stretch
import Mathlib.Data.List.Chain
import Mathlib.Data.List.Nodup
import Mathlib.Data.List.Perm.Basic

/-!
# Every Step Once

Stretches are cut so that nothing is left over and nothing is done twice. Each is
a chain of links, strictly increasing, that ends before a join or at the terminal;
every step is on one of them and on no other. Put one behind the other they are
therefore a rearrangement of all steps.

How many there are follows from counting what they lead to. All stretches but the
last lead to a join, and two lead to each join, so there is one scan more than
there are joins.

Following links one by one and following whole stretches lead to the same joins,
which is what connects `Feeds` with reachability in the graph.

## Main definitions

* `Leads`: One step leads to another, link by link.

## Theorems

* `stretch_linked`, `stretch_maximal`: A stretch is a chain of links that cannot go on.
* `stretches_perm`: The stretches hold every step once.
* `feeders_perm_starts`: Every stretch but the last leads to one join.
* `scans_length`: There is one scan more than there are joins.
* `leads_iff_feeds`: What a step leads to, stretch by stretch.
* `mem_feeding_stretch`: The steps on the stretches that feed a start.
-/

namespace Federation

namespace Workflow

theorem stretch_pairwise_lt (w : Workflow) (id : Nat) (hid : id < w.size) :
    (w.stretch id).Pairwise (· < ·) := by
  refine stretch_induction w (P := fun id => (w.stretch id).Pairwise (· < ·))
    (fun id _ hstop => ?_) (fun id v hn hv ih => ?_) id hid
  · rw [(stretch_stop w id hstop).1]
    exact List.pairwise_singleton _ _
  · have hlt := next?_lt hn
    rw [(stretch_go w id v hn hv).1, List.pairwise_cons]
    refine ⟨fun u hu => ?_, ih⟩
    have := le_of_mem_stretch w v hlt.2 u hu
    omega

/-- Each step of a stretch leads to the one behind it. -/
theorem stretch_linked (w : Workflow) (id : Nat) (hid : id < w.size) :
    (w.stretch id).IsChain fun u v => w.next? u = some v := by
  refine stretch_induction w
    (P := fun id => (w.stretch id).IsChain fun u v => w.next? u = some v)
    (fun id _ hstop => ?_) (fun id v hn hv ih => ?_) id hid
  · rw [(stretch_stop w id hstop).1]
    exact List.isChain_singleton _
  · rw [(stretch_go w id v hn hv).1]
    refine ih.cons fun u hu => ?_
    cases hu
    exact hn

theorem stretch_getLast? (w : Workflow) (id : Nat) :
    (w.stretch id).getLast? = some (w.stretchEnd id) := by
  unfold stretch stretchEnd
  rw [List.getLast?_cons, List.getLastD_eq_getLast?]

/-- A stretch goes on as long as it can: its last step leads to a join, or
    nowhere. -/
theorem stretch_maximal (w : Workflow) (id : Nat) (hid : id < w.size) :
    ∀ v, w.next? (w.stretchEnd id) = some v → v ∈ w.joins := by
  intro v hv
  rw [next?_stretchEnd w id hid] at hv
  exact (downstream_spec w id v hid hv).1

/-- The stretches of scans and joins hold every step once. -/
theorem stretches_perm (w : Workflow) : (w.starts.flatMap w.stretch).Perm w.ids := by
  have hnodup : (w.starts.flatMap w.stretch).Nodup := by
    rw [List.nodup_flatMap]
    refine ⟨fun t ht => ?_, ?_⟩
    · exact (stretch_pairwise_lt w t (starts_lt w t ht)).imp fun h => Nat.ne_of_lt h
    · -- Different starts have no step in common.
      refine (starts_nodup w).imp_of_mem fun {t u} ht hu hne v hvt hvu => hne ?_
      exact start_unique w v t ht u hu hvt hvu
  refine (List.perm_ext_iff_of_nodup hnodup (Graph.ids_nodup _)).mpr fun v => ?_
  rw [List.mem_flatMap, Graph.mem_ids]
  constructor
  · rintro ⟨t, ht, hv⟩
    exact (le_of_mem_stretch w t (starts_lt w t ht) v hv).2
  · intro hv
    exact exists_start w v hv

/-- Every start but the one whose stretch ends the workflow leads to one join. -/
theorem feeders_perm_starts (w : Workflow) (root : Nat) (hroot : w.IsRoot root) :
    (root :: w.joins.flatMap w.feeders).Perm w.starts := by
  have hnone : ∀ j, root ∉ w.feeders j := fun j hmem => by
    have hd := ((mem_feeders w j root).mp hmem).2
    rw [(hroot.downstream_eq_none root hroot.mem).mpr rfl] at hd
    cases hd
  have hnodup : (root :: w.joins.flatMap w.feeders).Nodup := by
    rw [List.nodup_cons, List.mem_flatMap, List.nodup_flatMap]
    refine ⟨fun ⟨j, _, hj⟩ => hnone j hj, fun j _ => feeders_nodup w j, ?_⟩
    -- What leads to one join leads to no other.
    refine ((Graph.ids_nodup _).filter _).imp_of_mem fun {j k} _ _ hne t hj hk => hne ?_
    have hjk := ((mem_feeders w j t).mp hj).2
    rw [((mem_feeders w k t).mp hk).2] at hjk
    exact (Option.some.inj hjk).symm
  refine (List.perm_ext_iff_of_nodup hnodup (starts_nodup w)).mpr fun t => ?_
  rw [List.mem_cons, List.mem_flatMap]
  constructor
  · rintro (rfl | ⟨j, _, hj⟩)
    · exact hroot.mem
    · exact ((mem_feeders w j t).mp hj).1
  · intro ht
    cases hd : w.downstream t with
    | none => exact Or.inl ((hroot.downstream_eq_none t ht).mp hd)
    | some j =>
        exact Or.inr ⟨j, (downstream_spec w t j (starts_lt w t ht) hd).1,
          (mem_feeders w j t).mpr ⟨ht, hd⟩⟩

/-- There is one scan more than there are joins: all starts but one lead to a join,
    two to each. -/
theorem scans_length (w : Workflow) : w.scans.length = w.joins.length + 1 := by
  rcases exists_root w with ⟨root, hroot⟩
  have hcount := (feeders_perm_starts w root hroot).length_eq
  have hpairs : (w.joins.map fun j => (w.feeders j).length) = w.joins.map fun _ => 2 := by
    refine List.map_congr_left fun j hj => ?_
    rcases feeders_pair w j hj with ⟨a, b, hab⟩
    rw [hab]
    rfl
  rw [List.length_cons, List.length_flatMap, hpairs, List.map_const', List.sum_replicate_nat,
    starts, List.length_append] at hcount
  omega

/-- One step leads to another if following links gets there. -/
def Leads (w : Workflow) (u v : Nat) : Prop :=
  Relation.ReflTransGen (fun a b => w.next? a = some b) u v

-- A stretch is followed link by link.
theorem leads_downstream (w : Workflow) (id join : Nat) (hid : id < w.size)
    (h : w.downstream id = some join) : w.Leads id join := by
  refine stretch_induction w (P := fun id => w.downstream id = some join → w.Leads id join)
    (fun id _ hstop h => ?_) (fun id v hn hv ih h => ?_) id hid h
  · rw [(stretch_stop w id hstop).2.2] at h
    exact Relation.ReflTransGen.single h
  · rw [(stretch_go w id v hn hv).2.2] at h
    exact Relation.ReflTransGen.head hn (ih h)

-- Wherever following links from a start gets, it is on a stretch that the start
-- feeds: a join begins the next stretch, and any other step is on the same one.
theorem leads_stretch (w : Workflow) (t v : Nat) (ht : t ∈ w.starts) (h : w.Leads t v) :
    ∃ u ∈ w.starts, w.Feeds t u ∧ v ∈ w.stretch u := by
  induction h with
  | refl => exact ⟨t, ht, Relation.ReflTransGen.refl, mem_stretch_self w t⟩
  | @tail a b _ hn ih =>
      rcases ih with ⟨u, hu, hfeeds, hmem⟩
      by_cases hb : b ∈ w.joins
      · have hdown := (downstream_of_mem w u (starts_lt w u hu) a hmem).1
        have hstop := (stretch_stop w a fun v hv => by
          rw [hn, Option.some.injEq] at hv
          rw [← hv]
          exact hb).2.2
        rw [hstop, hn] at hdown
        exact ⟨b, mem_starts_of_join w b hb, hfeeds.tail hdown.symm, mem_stretch_self w b⟩
      · exact ⟨u, hu, hfeeds, next?_mem_stretch w u (starts_lt w u hu) a hmem b hn hb⟩

/-- Starts lead to each other link by link exactly if they do stretch by stretch. -/
theorem leads_iff_feeds (w : Workflow) (t u : Nat) (ht : t ∈ w.starts) (hu : u ∈ w.starts) :
    w.Leads t u ↔ w.Feeds t u := by
  constructor
  · intro h
    rcases leads_stretch w t u ht h with ⟨v, hv, hfeeds, hmem⟩
    rw [start_eq_of_mem w v u hv hu hmem]
    exact hfeeds
  · intro h
    induction h with
    | refl => exact Relation.ReflTransGen.refl
    | @tail a b ha hd ih =>
        have has := feeds_starts w t a ht ha
        exact (ih has).trans (leads_downstream w a b (starts_lt w a has) hd)

-- A step that leads to a step of the workflow is one.
theorem lt_of_leads (w : Workflow) (u v : Nat) (hv : v < w.size) (h : w.Leads u v) :
    u < w.size := by
  rcases Relation.ReflTransGen.cases_head h with rfl | ⟨a, hn, _⟩
  · exact hv
  · have := next?_lt hn
    omega

theorem leads_of_mem_stretch (w : Workflow) (id : Nat) (hid : id < w.size) :
    ∀ v ∈ w.stretch id, w.Leads id v := by
  refine stretch_induction w (P := fun id => ∀ v ∈ w.stretch id, w.Leads id v)
    (fun id _ hstop v hv => ?_) (fun id u hn hu ih v hv => ?_) id hid
  · rw [(stretch_stop w id hstop).1, List.mem_singleton] at hv
    rw [hv]
    exact Relation.ReflTransGen.refl
  · rw [(stretch_go w id u hn hu).1, List.mem_cons] at hv
    rcases hv with rfl | hv
    · exact Relation.ReflTransGen.refl
    · exact Relation.ReflTransGen.head hn (ih v hv)

/-- The stretches that feed a start hold the steps that lead to it and those that it drags
    along. -/
theorem mem_feeding_stretch (w : Workflow) (t v : Nat) (ht : t ∈ w.starts) :
    (∃ u ∈ w.starts, w.Feeds u t ∧ v ∈ w.stretch u) ↔ w.Leads v t ∨ v ∈ w.stretch t := by
  constructor
  · rintro ⟨u, hu, hfeeds, hv⟩
    rcases Relation.ReflTransGen.cases_head hfeeds with rfl | ⟨d, hd, hfeeds⟩
    · exact Or.inr hv
    · have hlt := starts_lt w u hu
      have hstart := mem_starts_of_join w d (downstream_spec w u d hlt hd).1
      rw [← (downstream_of_mem w u hlt v hv).1] at hd
      have hlead := leads_downstream w v d (le_of_mem_stretch w u hlt v hv).2 hd
      exact Or.inl (hlead.trans ((leads_iff_feeds w d t hstart ht).mpr hfeeds))
  · rintro (hlead | hv)
    · rcases exists_start w v (lt_of_leads w v t (starts_lt w t ht) hlead) with ⟨u, hu, hv⟩
      have hto := leads_of_mem_stretch w u (starts_lt w u hu) v hv
      exact ⟨u, hu, (leads_iff_feeds w u t hu ht).mp (hto.trans hlead), hv⟩
    · exact ⟨t, ht, Relation.ReflTransGen.refl, hv⟩

end Workflow

end Federation
