import Mathlib.Data.List.Perm.Basic
import Federation.Proofs.Agree
import Federation.Proofs.Planner.Branches
import Federation.Proofs.Registry.Capture

/-!
# The Order of Discovery Is No Preference

A registry lists the connectors of a cluster in some order, and nothing that is sent
to anyone may depend on it. Two lists of the same connectors are followed side by side
here, through all that the planner does with lists. Whatever narrows them keeps them
rearrangements of each other; whatever picks a connector goes by its name, and picks
the same from both, as long as a name stands for one connector.

## Main definitions

* `Rearranged`: Lists of the same connectors, one for each name.
* `Snapshot.Rearranged`: Snapshots of such lists.
* `Branch.Alike`: The same branch but for the order of its candidates.

## Theorems

* `Rearranged.find?_name`: What is found under a name does not depend on the order.
* `cover_alike`, `branchOf_alike`: Nor how far connectors get.
* `branchesOf_alike`: Nor the branches of a workflow.
-/

namespace Federation

/-! ### Lists of connectors -/

-- Of two rearrangements either both are empty or neither is.
theorem perm_cases {α : Type} {l l' : List α} (h : l.Perm l') :
    (l = [] ∧ l' = []) ∨ ∃ a rest a' rest', l = a :: rest ∧ l' = a' :: rest' := by
  cases l with
  | nil => exact Or.inl ⟨rfl, h.nil_eq.symm⟩
  | cons a rest =>
      cases l' with
      | nil => exact absurd h.eq_nil (List.cons_ne_nil a rest)
      | cons a' rest' => exact Or.inr ⟨a, rest, a', rest', rfl, rfl⟩

/-- Whether two lists have the same connectors in some order, one for each name. -/
structure Rearranged (l l' : List Connector) : Prop where
  perm : l.Perm l'
  sole : ∀ c ∈ l, ∀ d ∈ l, c.name = d.name → c = d

namespace Rearranged

variable {l l' : List Connector}

theorem filter (h : Rearranged l l') (p : Connector → Bool) :
    Rearranged (l.filter p) (l'.filter p) :=
  ⟨h.perm.filter p, fun c hc d hd =>
    h.sole c (List.mem_filter.mp hc).1 d (List.mem_filter.mp hd).1⟩

-- Only one connector can be found under a name.
theorem find?_name (h : Rearranged l l') (name : ConnectorName) :
    (l.find? fun c => c.name == name) = l'.find? fun c => c.name == name := by
  cases hfound : l.find? fun c => c.name == name with
  | none =>
      symm
      rw [List.find?_eq_none] at hfound ⊢
      exact fun c hc => hfound c (h.perm.mem_iff.mpr hc)
  | some c =>
      have hc := List.mem_of_find?_eq_some hfound
      have hname := beq_iff_eq.mp (List.find?_some (p := fun d : Connector => d.name == name)
        hfound)
      cases hother : l'.find? fun c => c.name == name with
      | none =>
          have hnone := List.find?_eq_none.mp hother c (h.perm.mem_iff.mp hc)
          exact absurd (beq_iff_eq.mpr hname) hnone
      | some d =>
          have hd := h.perm.mem_iff.mpr (List.mem_of_find?_eq_some hother)
          have hdname := beq_iff_eq.mp (List.find?_some
            (p := fun d : Connector => d.name == name) hother)
          rw [h.sole c hc d hd (hname.trans hdname.symm)]

theorem sharedWith {others others' : List Connector} (h : Rearranged l l')
    (hothers : Rearranged others others') :
    Rearranged (sharedWith others l) (sharedWith others' l') := by
  unfold Federation.sharedWith
  simp only [hothers.perm.any_eq]
  exact h.filter _

end Rearranged

/-! ### Branches -/

/-- Whether two walks are the same but for the order of the connectors. -/
structure Reach.Alike (r r' : Reach) : Prop where
  steps_eq : r.steps = r'.steps
  stoppedAt_eq : r.stoppedAt = r'.stoppedAt
  connectors : Rearranged r.connectors r'.connectors

/-- Whether two branches are the same but for the order of the candidates. -/
structure Branch.Alike (b b' : Branch) : Prop where
  table_eq : b.table = b'.table
  initial_eq : b.initial = b'.initial
  last_eq : b.last = b'.last
  steps_eq : b.steps = b'.steps
  next_eq : b.next = b'.next
  connectors : Rearranged b.connectors b'.connectors

/-- Connectors get equally far in any order. -/
theorem cover_alike (w : Workflow) (stop : Option Nat) (ids : List Nat)
    (running running' : List Connector) (h : Rearranged running running') :
    (w.cover stop running ids).Alike (w.cover stop running' ids) := by
  induction ids generalizing running running' with
  | nil => exact ⟨rfl, rfl, h⟩
  | cons id rest ih =>
      have hable : Rearranged (w.ableAt id running) (w.ableAt id running') := by
        rw [Workflow.ableAt_eq, Workflow.ableAt_eq]
        exact h.filter _
      unfold Workflow.cover
      rcases perm_cases hable.perm with ⟨hnil, hnil'⟩ | ⟨c, narrowed, c', narrowed', hrun, hrun'⟩
      · rw [hnil, hnil']
        exact ⟨rfl, rfl, h⟩
      · rw [hrun, hrun'] at hable ⊢
        have hfurther := ih _ _ hable
        exact ⟨congrArg (id :: ·) hfurther.steps_eq, hfurther.stoppedAt_eq, hfurther.connectors⟩

theorem reach_alike (w : Workflow) (start : Option Nat) (running running' : List Connector)
    (h : Rearranged running running') : (w.reach start running).Alike (w.reach start running') :=
  cover_alike w _ _ running running' h

/-- The branch of a scan is the same whatever the order of the candidates. -/
theorem branchOf_alike (w : Workflow) (initial : Nat) (found found' : List Connector)
    (h : Rearranged found found') :
    Agree Branch.Alike (Branch.of w initial found) (Branch.of w initial found') := by
  unfold Branch.of
  split
  · rename_i table cluster columns _
    simp only
    have hable := h.filter fun c => c.canRun (.scan table cluster columns)
    change Rearranged (ableTo _ found) (ableTo _ found') at hable
    rcases perm_cases hable.perm with ⟨hnil, hnil'⟩ | ⟨c, running, c', running', hrun, hrun'⟩
    · rw [hnil, hnil']
      exact Agree.error _
    · rw [hrun, hrun'] at hable ⊢
      have hreach := reach_alike w (w.next? initial) _ _ hable
      refine Agree.ok _ _ ⟨rfl, rfl, ?_, ?_, hreach.stoppedAt_eq, hreach.connectors⟩
      · rw [hreach.steps_eq]
      · rw [hreach.steps_eq]
  · exact Agree.error _

theorem gap?_alike (w : Workflow) (b b' : Branch) (h : b.Alike b') : b.gap? w = b'.gap? w := by
  unfold Branch.gap?
  rw [h.next_eq, h.table_eq]

/-- Whether two snapshots list the same connectors for each cluster, in some order, and
    one connector for each name. -/
structure Snapshot.Rearranged (s s' : Snapshot) : Prop where
  perm : ∀ cluster, (s.connectorsOf cluster).Perm (s'.connectorsOf cluster)
  sole : s.OneDefinition

theorem Snapshot.Rearranged.connectors {s s' : Snapshot} (h : s.Rearranged s')
    (cluster : ClusterName) :
    Federation.Rearranged (s.connectorsOf cluster) (s'.connectorsOf cluster) :=
  ⟨h.perm cluster, fun c hc d hd => h.sole c d ⟨cluster, hc⟩ ⟨cluster, hd⟩⟩

-- Which branch stops too early is told by the steps alone.
theorem findSome?_gap?_alike (w : Workflow) (branches branches' : List Branch)
    (h : List.Forall₂ Branch.Alike branches branches') :
    branches.findSome? (Branch.gap? w) = branches'.findSome? (Branch.gap? w) := by
  induction h with
  | nil => rfl
  | cons hb _ ih => rw [List.findSome?_cons, List.findSome?_cons, gap?_alike w _ _ hb, ih]

/-- The branches of a workflow are the same whatever the order of discovery. -/
theorem branchesOf_alike (s s' : Snapshot) (w : Workflow) (h : s.Rearranged s') :
    Agree (List.Forall₂ Branch.Alike) (branchesOf s w) (branchesOf s' w) := by
  unfold branchesOf
  refine Agree.bind (R := List.Forall₂ Branch.Alike) (Agree.mapM_self _ fun t ht => ?_)
    fun branches branches' hbranches => ?_
  · rcases (Graph.mem_scans _ t).mp ht with ⟨table, cluster, columns, hstep⟩
    rw [candidates_of_scan s w t table cluster columns hstep,
      candidates_of_scan s' w t table cluster columns hstep]
    exact branchOf_alike w t _ _ ((h.connectors _).filter _)
  · rw [findSome?_gap?_alike w _ _ hbranches]
    cases branches'.findSome? (Branch.gap? w) with
    | some cause => exact Agree.error cause
    | none => exact Agree.ok _ _ hbranches

end Federation
