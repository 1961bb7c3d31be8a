import Federation.Workflow
import Mathlib.Data.List.Basic

/-!
# Links in Both Directions

A graph records its links once, as a list, and is read in two directions: `next?`
goes from a step to the one that works on its result, and `inputs` goes back to
the steps that feed it. The local conditions on a workflow make the two readings
inverse to each other. A step feeds at most one other, so the head of its
successors is all of them; and since no link is made twice, sorting the
predecessors of a step loses none of them, so a step has exactly as many inputs
as it needs.

What kind of step a number stands for is said by the listings `scans` and
`joins`. Every other step has one input, and walking back along single inputs
ends at a scan or a join, which is how a workflow falls into stretches.

## Theorems

* `mem_inputs`: A step is fed by those that lead to it.
* `inputs_length`: A step has as many inputs as it needs.
* `next?_eq_none`: Only the terminal leads nowhere.
* `next?_induction`: Induction from the terminal against the links.
* `inputs_scan`, `inputs_join`, `inputs_inner`: What feeds a step of each kind.
-/

namespace Federation

namespace Graph

theorem mem_successors (g : Graph) (u v : Nat) : v ∈ g.successors u ↔ ⟨u, v⟩ ∈ g.links := by
  unfold successors
  constructor
  · intro h
    rcases List.mem_map.mp h with ⟨l, hl, rfl⟩
    rcases List.mem_filter.mp hl with ⟨hmem, hsource⟩
    rw [← beq_iff_eq.mp hsource]
    exact hmem
  · intro h
    exact List.mem_map.mpr ⟨⟨u, v⟩, List.mem_filter.mpr ⟨h, beq_self_eq_true u⟩, rfl⟩

theorem mem_predecessors (g : Graph) (u v : Nat) :
    u ∈ g.predecessors v ↔ ⟨u, v⟩ ∈ g.links := by
  unfold predecessors
  constructor
  · intro h
    rcases List.mem_map.mp h with ⟨l, hl, rfl⟩
    rcases List.mem_filter.mp hl with ⟨hmem, htarget⟩
    rw [← beq_iff_eq.mp htarget]
    exact hmem
  · intro h
    exact List.mem_map.mpr ⟨⟨u, v⟩, List.mem_filter.mpr ⟨h, beq_self_eq_true v⟩, rfl⟩

-- Where no step feeds two others, no two links have one source.
theorem sources_nodup (g : Graph) (h : ∀ id, (g.successors id).length ≤ 1) :
    (g.links.map Link.source).Nodup := by
  rw [List.nodup_iff_count]
  intro id
  have hcount : (g.links.map Link.source).count id = (g.successors id).length := by
    rw [List.count, List.countP_map, List.countP_eq_length_filter, successors, List.length_map]
    rfl
  rw [hcount]
  exact h id

theorem exists_step (g : Graph) (id : Nat) (h : id < g.size) : ∃ step, g.step? id = some step :=
  ⟨g.steps[id], List.getElem?_eq_getElem h⟩

theorem mem_ids (g : Graph) (id : Nat) : id ∈ g.ids ↔ id < g.size := List.mem_range

theorem mem_scans (g : Graph) (id : Nat) :
    id ∈ g.scans ↔ ∃ table cluster columns, g.step? id = some (.scan table cluster columns) := by
  unfold scans
  rw [List.mem_filter, mem_ids]
  constructor
  · rintro ⟨hid, hscan⟩
    rcases exists_step g id hid with ⟨step, hstep⟩
    rw [hstep] at hscan ⊢
    cases step with
    | scan table cluster columns => exact ⟨table, cluster, columns, rfl⟩
    | filter _ _ => cases hscan
    | projection _ _ => cases hscan
    | join _ _ => cases hscan
  · rintro ⟨table, cluster, columns, hstep⟩
    exact ⟨step?_eq_some_lt hstep, by rw [hstep]; rfl⟩

theorem isJoinAt_iff (g : Graph) (id : Nat) :
    g.isJoinAt id = true ↔ ∃ relation alternatives, g.step? id = some (.join relation alternatives)
    := by
  unfold isJoinAt
  constructor
  · intro h
    rcases (Option.any_eq_true Step.isJoin (g.step? id)).mp h with ⟨step, hstep, hjoin⟩
    cases step with
    | scan _ _ _ => cases hjoin
    | filter _ _ => cases hjoin
    | projection _ _ => cases hjoin
    | join relation alternatives => exact ⟨relation, alternatives, hstep⟩
  · rintro ⟨relation, alternatives, hstep⟩
    rw [hstep]
    rfl

theorem mem_joins (g : Graph) (id : Nat) : id ∈ g.joins ↔ g.isJoinAt id = true := by
  unfold joins
  rw [List.mem_filter, mem_ids]
  refine ⟨fun h => h.2, fun h => ⟨?_, h⟩⟩
  rcases (isJoinAt_iff g id).mp h with ⟨_, _, hstep⟩
  exact step?_eq_some_lt hstep

theorem lt_of_mem_scans (g : Graph) (id : Nat) (h : id ∈ g.scans) : id < g.size :=
  (mem_ids g id).mp (List.mem_filter.mp h).1

theorem lt_of_mem_joins (g : Graph) (id : Nat) (h : id ∈ g.joins) : id < g.size :=
  (mem_ids g id).mp (List.mem_filter.mp h).1

-- No step is both a scan and a join.
theorem not_mem_joins_of_mem_scans (g : Graph) (id : Nat) (h : id ∈ g.scans) : id ∉ g.joins := by
  rcases (mem_scans g id).mp h with ⟨_, _, _, hscan⟩
  intro hjoin
  rcases (isJoinAt_iff g id).mp ((mem_joins g id).mp hjoin) with ⟨_, _, hstep⟩
  rw [hscan] at hstep
  cases hstep

theorem ids_nodup (g : Graph) : g.ids.Nodup := List.nodup_range

theorem ids_pairwise_lt (g : Graph) : g.ids.Pairwise (· < ·) := List.pairwise_lt_range

end Graph

namespace Workflow

theorem next?_eq_some (w : Workflow) (u v : Nat) : w.next? u = some v ↔ ⟨u, v⟩ ∈ w.links := by
  rw [← Graph.mem_successors]
  unfold Graph.next?
  -- A step has at most one successor, so its head is the whole list.
  cases hs : w.successors u with
  | nil => simp
  | cons a rest =>
      have hle := w.sound.successors_le u
      rw [hs] at hle
      have hrest : rest = [] := List.eq_nil_of_length_eq_zero (by simpa using hle)
      rw [hrest, List.head?_cons, List.mem_singleton, Option.some.injEq]
      exact eq_comm

/-- A step is fed by those that lead to it. -/
theorem mem_inputs (w : Workflow) (u v : Nat) : u ∈ w.inputs v ↔ w.next? u = some v := by
  unfold Graph.inputs
  rw [mem_ascending, Graph.mem_predecessors, next?_eq_some]

theorem inputs_lt (w : Workflow) (u v : Nat) (h : u ∈ w.inputs v) : u < v :=
  (next?_lt ((mem_inputs w u v).mp h)).1

-- No link is made twice.
theorem predecessors_nodup (w : Workflow) (id : Nat) : (w.predecessors id).Nodup :=
  ((List.filter_sublist).map Link.source).nodup
    (Graph.sources_nodup w.toGraph w.sound.successors_le)

/-- A step has as many inputs as it needs: no link is made twice, so sorting the
    predecessors drops none. -/
theorem inputs_length (w : Workflow) (id : Nat) (step : Step) (h : w.step? id = some step) :
    (w.inputs id).length = step.arity := by
  unfold Graph.inputs
  rw [(ascending_perm (predecessors_nodup w id)).length_eq]
  exact w.sound.predecessors_eq id step h

theorem inputs_nodup (w : Workflow) (id : Nat) : (w.inputs id).Nodup :=
  (ascending_pairwise _).nodup

theorem mem_sinks (w : Workflow) (id : Nat) : id ∈ w.sinks ↔ id < w.size ∧ w.next? id = none := by
  unfold Graph.sinks
  rw [List.mem_filter, Graph.mem_ids, List.isEmpty_iff, Graph.next?, List.head?_eq_none_iff]

-- The terminal is a step, and leads nowhere.
theorem terminal_spec (w : Workflow) : w.terminal < w.size ∧ w.next? w.terminal = none := by
  rw [← mem_sinks, w.sinks_eq]
  exact List.mem_singleton_self _

/-- Only the terminal leads nowhere. -/
theorem next?_eq_none (w : Workflow) (id : Nat) (hid : id < w.size) :
    w.next? id = none ↔ id = w.terminal := by
  constructor
  · intro h
    have hmem : id ∈ w.sinks := (mem_sinks w id).mpr ⟨hid, h⟩
    rw [w.sinks_eq] at hmem
    exact List.mem_singleton.mp hmem
  · intro h
    rw [h]
    exact (terminal_spec w).2

/-- Induction against the links: from the terminal, and to each step from the one it
    leads to. -/
theorem next?_induction (w : Workflow) {P : Nat → Prop} (last : P w.terminal)
    (back : ∀ u v, w.next? u = some v → P v → P u) (id : Nat) (hid : id < w.size) : P id := by
  -- Links lead forward, so the distance to the last number decreases.
  have h : ∀ n id, id < w.size → w.size ≤ id + n → P id := by
    intro n
    induction n with
    | zero => intro id hid hn; omega
    | succ n ih =>
        intro id hid hn
        cases hnext : w.next? id with
        | none =>
            rw [(next?_eq_none w id hid).mp hnext]
            exact last
        | some v =>
            have hlt := next?_lt hnext
            exact back id v hnext (ih v hlt.2 (by omega))
  exact h w.size id hid (by omega)

/-- Scans are fed by nothing. -/
theorem inputs_scan (w : Workflow) (id : Nat) (h : id ∈ w.scans) : w.inputs id = [] := by
  rcases (Graph.mem_scans _ id).mp h with ⟨_, _, _, hstep⟩
  exact List.eq_nil_of_length_eq_zero (inputs_length w id _ hstep)

/-- Joins are fed by two steps. -/
theorem inputs_join (w : Workflow) (id : Nat) (h : id ∈ w.joins) :
    ∃ a b, w.inputs id = [a, b] := by
  rcases (Graph.isJoinAt_iff _ id).mp ((Graph.mem_joins _ id).mp h) with ⟨_, _, hstep⟩
  exact List.length_eq_two.mp (inputs_length w id _ hstep)

/-- A step that is neither scan nor join is fed by one step. -/
theorem inputs_inner (w : Workflow) (id : Nat) (hid : id < w.size) (hscan : id ∉ w.scans)
    (hjoin : id ∉ w.joins) : ∃ u, w.inputs id = [u] := by
  rcases Graph.exists_step _ id hid with ⟨step, hstep⟩
  have hlen := inputs_length w id step hstep
  cases step with
  | scan table cluster columns =>
      exact absurd ((Graph.mem_scans _ id).mpr ⟨_, _, _, hstep⟩) hscan
  | filter _ _ => exact List.length_eq_one_iff.mp hlen
  | projection _ _ => exact List.length_eq_one_iff.mp hlen
  | join relation alternatives =>
      exact absurd ((Graph.mem_joins _ id).mpr ((Graph.isJoinAt_iff _ id).mpr ⟨_, _, hstep⟩)) hjoin

end Workflow

end Federation
