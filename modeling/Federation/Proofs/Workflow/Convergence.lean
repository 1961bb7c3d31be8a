import Federation.Proofs.Workflow.Building
import Federation.Proofs.Workflow.Partition
import Federation.Wire.Workflow

/-!
# Every Workflow Is a Tree of Joins

What is examined before a workflow is handed out is local: links lead forward, no step
feeds two others, each is fed by as many as it needs, and one feeds none. Planning relies
on more: that the links lead from every step to the terminal and back from every step
to a scan, so that nothing is computed in vain and nothing from nothing.

Both follow by induction over the numbers of the steps, as links lead to greater ones
only: towards the last number, which for that reason is the terminal, and back towards
the first. It makes no difference in which order the links of a graph are listed, and
two links with the same ends are refused with the rest.

## Main definitions

* `Workflow.IsTree`: The shape of a workflow.

## Theorems

* `leads_terminal`: Every step leads to the terminal.
* `exists_scan_leads`: Every step is reached from a scan.
* `terminal_last`: The terminal is the last step.
* `handedOut_isTree`: Whatever is built or read back is a tree of joins.
* `retried_isTree`: A join of two scans, built after a join that was refused.
-/

namespace Federation

namespace Workflow

/-- The shape of a workflow: branches that start at scans and meet at joins, until one
    step is left. -/
structure IsTree (w : Workflow) : Prop where
  linked : ∀ u v, w.next? u = some v ↔ u ∈ w.inputs v
  /-- Each link counts once. -/
  inputs_perm : ∀ v, (w.inputs v).Perm (w.predecessors v)
  inputs_lt : ∀ v, ∀ u ∈ w.inputs v, u < v
  one_next : ∀ u, u < w.size → u ≠ w.terminal → ∃ v, w.successors u = [v]
  terminal_next : w.successors w.terminal = []
  terminal_last : w.terminal + 1 = w.size
  converges : ∀ u, u < w.size → w.Leads u w.terminal
  scanned : ∀ v, v < w.size → ∃ t ∈ w.initialSteps, w.Leads t v
  scan_inputs : ∀ t ∈ w.scans, w.inputs t = []
  join_inputs : ∀ j ∈ w.joins, ∃ a b, w.inputs j = [a, b] ∧ a ≠ b
  inner_inputs : ∀ v, v < w.size → v ∉ w.scans → v ∉ w.joins → ∃ u, w.inputs v = [u]
  mem_initial : ∀ t, t ∈ w.initialSteps ↔
    ∃ table cluster columns, w.step? t = some (.scan table cluster columns)
  initial_ascending : w.initialSteps.Pairwise (· < ·)
  scans_count : w.initialSteps.length = w.joins.length + 1

/-- A step that leads somewhere leads to one step. -/
theorem successors_of_next? (w : Workflow) (u v : Nat) (h : w.next? u = some v) :
    w.successors u = [v] := by
  rcases List.head?_eq_some_iff.mp h with ⟨rest, hrest⟩
  have hle := w.sound.successors_le u
  rw [hrest, List.length_cons] at hle
  rw [hrest, List.eq_nil_of_length_eq_zero (by omega : rest.length = 0)]

-- A step that is no scan is fed by something.
theorem exists_input (w : Workflow) (v : Nat) (hv : v < w.size) (hscan : v ∉ w.scans) :
    ∃ u, u ∈ w.inputs v := by
  by_cases hjoin : v ∈ w.joins
  · rcases inputs_join w v hjoin with ⟨a, b, hab⟩
    exact ⟨a, by rw [hab]; exact List.mem_cons_self⟩
  · rcases inputs_inner w v hv hscan hjoin with ⟨u, hu⟩
    exact ⟨u, by rw [hu]; exact List.mem_cons_self⟩

/-- Every step leads to the terminal. -/
theorem leads_terminal (w : Workflow) (u : Nat) (hu : u < w.size) : w.Leads u w.terminal := by
  refine next?_induction w (P := fun u => w.Leads u w.terminal) Relation.ReflTransGen.refl
    (fun u v hnext ih => ?_) u hu
  exact Relation.ReflTransGen.head hnext ih

/-- Every step is reached from a scan. -/
theorem exists_scan_leads (w : Workflow) (v : Nat) (hv : v < w.size) :
    ∃ t ∈ w.scans, w.Leads t v := by
  induction v using Nat.strongRecOn with
  | _ v ih =>
    by_cases hscan : v ∈ w.scans
    · exact ⟨v, hscan, Relation.ReflTransGen.refl⟩
    · rcases exists_input w v hv hscan with ⟨u, hu⟩
      have hnext := (mem_inputs w u v).mp hu
      have hlt := (next?_lt hnext).1
      rcases ih u hlt (by omega) with ⟨t, ht, hleads⟩
      exact ⟨t, ht, hleads.tail hnext⟩

/-- The terminal is the last step, since whatever leads somewhere leads to a later one. -/
theorem terminal_last (w : Workflow) : w.terminal + 1 = w.size := by
  have hlt := (terminal_spec w).1
  have hlast : w.next? (w.size - 1) = none := by
    cases hnext : w.next? (w.size - 1) with
    | none => rfl
    | some v =>
        have := next?_lt hnext
        omega
  have hterminal := (next?_eq_none w (w.size - 1) (by omega)).mp hlast
  omega

/-- The local conditions on a workflow make it a tree. -/
theorem isTree (w : Workflow) : w.IsTree := by
  constructor
  case linked => exact fun u v => (mem_inputs w u v).symm
  case inputs_perm => exact fun v => ascending_perm (predecessors_nodup w v)
  case inputs_lt => exact fun v u hu => inputs_lt w u v hu
  case one_next =>
    intro u hu hne
    cases hnext : w.next? u with
    | none => exact absurd ((next?_eq_none w u hu).mp hnext) hne
    | some v => exact ⟨v, successors_of_next? w u v hnext⟩
  case terminal_next => exact List.head?_eq_none_iff.mp (terminal_spec w).2
  case terminal_last => exact terminal_last w
  case converges => exact leads_terminal w
  case scanned => exact exists_scan_leads w
  case scan_inputs => exact inputs_scan w
  case join_inputs =>
    intro j hj
    rcases inputs_join w j hj with ⟨a, b, hab⟩
    have hnodup := inputs_nodup w j
    rw [hab, List.nodup_cons, List.mem_singleton] at hnodup
    exact ⟨a, b, hab, hnodup.1⟩
  case inner_inputs => exact inputs_inner w
  case mem_initial => exact Graph.mem_scans w.toGraph
  case initial_ascending => exact (Graph.ids_pairwise_lt w.toGraph).filter _
  case scans_count => exact scans_length w

end Workflow

/-- Every workflow that calls build, refused ones among them, is the tree of their
    graph; every workflow of a graph that is accepted is the tree of that graph, from
    its declared scans to its declared terminal; and so is what is read back. -/
theorem handedOut_isTree :
    (∀ calls w, (Builder.after calls).build = .ok w →
      w.toGraph = (Builder.after calls).graph ∧ w.IsTree) ∧
    (∀ g initial terminal w, Workflow.ofGraph g initial terminal = .ok w →
      w.toGraph = g ∧ w.initialSteps = initial ∧ w.terminal = terminal ∧ w.IsTree) ∧
    ∀ j w, Workflow.ofJson j = .ok w → w.IsTree := by
  refine ⟨fun calls w h => ?_, fun g initial terminal w h => ?_, fun _ w _ => w.isTree⟩
  · exact ⟨(Workflow.ofSound_eq_ok _ _ w).mp h, w.isTree⟩
  · rcases (Workflow.ofGraph_eq_ok g initial terminal w).mp h with ⟨hg, hinitial, hterminal⟩
    exact ⟨hg, hinitial, hterminal, w.isTree⟩

/-- A join that is tried with one side only and then with two. -/
def retried : List Builder.Call :=
  [.join 0 1 default, .join 0 0 default, .scan ⟨⟨"shop"⟩, "orders"⟩ ⟨"west"⟩ [],
    .scan ⟨⟨"shop"⟩, "users"⟩ ⟨"east"⟩ []]

/-- The refused join leaves no trace, and the graph may be read back with its links
    listed from the last one to the first. -/
theorem retried_isTree :
    (∃ w, (Builder.after retried).build = .ok w ∧ w.size = 3 ∧ w.Leads 0 w.terminal) ∧
      ∃ v, Workflow.ofGraph ⟨(Builder.after retried).graph.steps,
          (Builder.after retried).graph.links.reverse⟩ [0, 1] 2 = .ok v ∧
        v.predecessors 2 = [1, 0] ∧ v.inputs 2 = [0, 1] ∧ v.Leads 0 v.terminal := by
  constructor
  · exact ⟨_, rfl, rfl, (handedOut_isTree.1 retried _ rfl).2.converges 0 (by decide)⟩
  · have h := handedOut_isTree.2.1 ⟨(Builder.after retried).graph.steps,
      (Builder.after retried).graph.links.reverse⟩ [0, 1] 2 _ rfl
    exact ⟨_, rfl, rfl, rfl, h.2.2.2.converges 0 (by decide)⟩

end Federation
