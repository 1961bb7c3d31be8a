import Federation.Proofs.Collect
import Federation.Proofs.Workflow.Links
import Federation.Workflow.Builder
import Mathlib.Data.List.Nodup

/-!
# What Calls Make of a Builder

The calls of a builder differ in what they ask for, but all have the same effect: a
step that a workflow admits is put behind the others, and links lead to it from steps
that led nowhere before. So a call is described by the step it adds and the steps that
feed it, and whether it is accepted depends on the latter alone, as long as there is
room for another step.

A workflow is then handed out by a builder whose graph has one end, or for a graph
from elsewhere that was examined and whose ends were declared as they are. Either way
it is the workflow of that graph and no other.

## Main definitions

* `Call.Adds`: The step that a call adds, and the steps that feed it.
* `Grows`: The effect of adding a step.
* `after`: The builder after calls, refused ones included.

## Theorems

* `perform_eq_ok`: The effect of an accepted call.
* `ofSound_eq_ok`, `ofGraph_eq_ok`: Which workflow is handed out.
-/

namespace Federation

namespace Builder

/-- The step that a call adds, and the steps that it names to feed it. -/
inductive Call.Adds : Call → List Nat → Step → Prop where
  | scan (table : TableName) (cluster : ClusterName) (columns : List ColumnName) :
      Adds (.scan table cluster columns) [] (.scan table cluster columns)
  | filter (up : Nat) (column : ColumnClass) (relation : Relation) (operation : Capability)
      (needs : Capability.filter? column relation.operator = some operation) :
      Adds (.filter up column relation) [up] (.filter relation operation)
  | project (up : Nat) (columns : List OutputColumn) :
      Adds (.project up columns) [up] (.projection columns none)
  | window (up : Nat) (columns : List OutputColumn) (window : Window) :
      Adds (.window up columns window) [up] (.projection columns (some window))
  | join (left right : Nat) (relation : Relation) (different : left ≠ right) :
      Adds (.join left right relation) [left, right] (.join relation Capability.joinVariants)
  | joinWith (left right : Nat) (relation : Relation) (alternatives : List Capability)
      (different : left ≠ right) (admitted : (Step.join relation alternatives).fault? = none) :
      Adds (.joinWith left right relation alternatives) [left, right] (.join relation alternatives)

/-- The effect of adding a step: steps that fed nothing feed the new one. -/
structure Grows (b : Builder) (feeds : List Nat) (step : Step) (id : Nat) (b' : Builder) :
    Prop where
  free : ∀ u ∈ feeds, u < b.graph.size ∧ b.graph.successors u = []
  room : b.graph.size < Graph.capacity
  id_eq : id = b.graph.size
  graph_eq : b'.graph = b.graph.append feeds step

/-- The builder after calls on one without steps, the latest call first. A call that
    is refused changes nothing. -/
def after : List Call → Builder
  | [] => empty
  | call :: past =>
    match (after past).perform call with
    | .ok (_, b) => b
    | .error _ => after past

-- Builders of one graph are the same.
theorem eq_of_graph_eq (a b : Builder) (h : a.graph = b.graph) : a = b := by
  cases a
  cases b
  cases h
  rfl

theorem feedFault?_eq_none_iff (b : Builder) (id : Nat) :
    b.feedFault? id = none ↔ id < b.graph.size ∧ b.graph.successors id = [] := by
  refine ⟨feedFault?_eq_none, fun ⟨hlt, hfree⟩ => ?_⟩
  unfold feedFault?
  rw [if_neg (Nat.not_le_of_lt hlt), hfree]
  rfl

-- A step that a workflow admits is added wherever it can be fed and there is room.
theorem append_eq_ok (b : Builder) (feeds : List Nat) (step : Step)
    (admitted : step.fault? = none) (enough : feeds.length = step.arity)
    (different : feeds.Nodup) (id : Nat) (b' : Builder) :
    b.append feeds step admitted enough different = .ok (id, b') ↔ b.Grows feeds step id b' := by
  unfold append
  split
  case h_1 fault hfault =>
    constructor
    · intro h
      cases h
    · intro h
      have hnone : feeds.findSome? b.feedFault? = none :=
        List.findSome?_eq_none_iff.mpr fun u hu => (feedFault?_eq_none_iff b u).mpr (h.free u hu)
      rw [hnone] at hfault
      cases hfault
  case h_2 hnone =>
    have hfree : ∀ u ∈ feeds, u < b.graph.size ∧ b.graph.successors u = [] := fun u hu =>
      feedFault?_eq_none (List.findSome?_eq_none_iff.mp hnone u hu)
    split
    case isTrue room =>
      constructor
      · intro h
        cases h
        exact ⟨hfree, room, rfl, rfl⟩
      · intro h
        have hsound := b.sound.append room admitted enough different hfree
        rw [h.id_eq, eq_of_graph_eq b' ⟨_, hsound⟩ h.graph_eq]
    case isFalse full =>
      constructor
      · intro h
        cases h
      · intro h
        exact absurd h.room full

theorem scan_eq_ok (b : Builder) (table : TableName) (cluster : ClusterName)
    (columns : List ColumnName) (id : Nat) (b' : Builder) :
    b.scan table cluster columns = .ok (id, b') ↔
      b.Grows [] (.scan table cluster columns) id b' :=
  append_eq_ok b [] _ rfl rfl List.nodup_nil id b'

theorem project_eq_ok (b : Builder) (up : Nat) (columns : List OutputColumn) (id : Nat)
    (b' : Builder) :
    b.project up columns = .ok (id, b') ↔ b.Grows [up] (.projection columns none) id b' :=
  append_eq_ok b [up] _ rfl rfl (List.nodup_singleton up) id b'

theorem window_eq_ok (b : Builder) (up : Nat) (columns : List OutputColumn) (window : Window)
    (id : Nat) (b' : Builder) :
    b.window up columns window = .ok (id, b') ↔
      b.Grows [up] (.projection columns (some window)) id b' :=
  append_eq_ok b [up] _ rfl rfl (List.nodup_singleton up) id b'

-- Join is the call that leaves the choice among all join capabilities.
theorem join_admitted (relation : Relation) :
    (Step.join relation Capability.joinVariants).fault? = none := by
  rfl

theorem joinWith_eq_ok (b : Builder) (left right : Nat) (relation : Relation)
    (alternatives : List Capability) (id : Nat) (b' : Builder) :
    b.joinWith left right relation alternatives = .ok (id, b') ↔
      left ≠ right ∧ (Step.join relation alternatives).fault? = none ∧
        b.Grows [left, right] (.join relation alternatives) id b' := by
  unfold joinWith
  split
  case isTrue same =>
    exact ⟨fun h => (by cases h), fun h => absurd same h.1⟩
  case isFalse different =>
    split
    case h_1 fault hfault =>
      refine ⟨fun h => (by cases h), fun h => ?_⟩
      rw [h.2.1] at hfault
      cases hfault
    case h_2 admitted =>
      exact ⟨fun h => ⟨different, admitted, (append_eq_ok ..).mp h⟩,
        fun h => (append_eq_ok ..).mpr h.2.2⟩

theorem filter_eq_ok (b : Builder) (up : Nat) (column : ColumnClass) (relation : Relation)
    (id : Nat) (b' : Builder) :
    b.filter up column relation = .ok (id, b') ↔
      ∃ operation, Capability.filter? column relation.operator = some operation ∧
        b.Grows [up] (.filter relation operation) id b' := by
  unfold filter
  split
  case h_1 hnone =>
    refine ⟨fun h => (by cases h), fun ⟨operation, h, _⟩ => ?_⟩
    rw [hnone] at h
    cases h
  case h_2 operation hsome =>
    refine ⟨fun h => ⟨operation, hsome, (append_eq_ok ..).mp h⟩, fun ⟨other, h, hgrows⟩ => ?_⟩
    rw [hsome] at h
    cases h
    exact (append_eq_ok ..).mpr hgrows

/-- An accepted call adds the step it asks for, fed by the steps it names. -/
theorem perform_eq_ok (b : Builder) (call : Call) (id : Nat) (b' : Builder) :
    b.perform call = .ok (id, b') ↔
      ∃ feeds step, call.Adds feeds step ∧ b.Grows feeds step id b' := by
  constructor
  · intro h
    cases call with
    | scan table cluster columns =>
        exact ⟨_, _, .scan table cluster columns, (scan_eq_ok b _ _ _ id b').mp h⟩
    | filter up column relation =>
        rcases (filter_eq_ok b up column relation id b').mp h with ⟨operation, hneeds, hgrows⟩
        exact ⟨_, _, .filter up column relation operation hneeds, hgrows⟩
    | project up columns =>
        exact ⟨_, _, .project up columns, (project_eq_ok b up columns id b').mp h⟩
    | window up columns window =>
        exact ⟨_, _, .window up columns window, (window_eq_ok b up columns window id b').mp h⟩
    | join left right relation =>
        rcases (joinWith_eq_ok b left right relation Capability.joinVariants id b').mp h with
          ⟨hne, _, hgrows⟩
        exact ⟨_, _, .join left right relation hne, hgrows⟩
    | joinWith left right relation alternatives =>
        rcases (joinWith_eq_ok b left right relation alternatives id b').mp h with
          ⟨hne, hadmitted, hgrows⟩
        exact ⟨_, _, .joinWith left right relation alternatives hne hadmitted, hgrows⟩
  · rintro ⟨feeds, step, hadds, hgrows⟩
    cases hadds with
    | scan table cluster columns => exact (scan_eq_ok b _ _ _ id b').mpr hgrows
    | filter up column relation operation hneeds =>
        exact (filter_eq_ok b up column relation id b').mpr ⟨operation, hneeds, hgrows⟩
    | project up columns => exact (project_eq_ok b up columns id b').mpr hgrows
    | window up columns window => exact (window_eq_ok b up columns window id b').mpr hgrows
    | join left right relation hne =>
        exact (joinWith_eq_ok b left right relation Capability.joinVariants id b').mpr
          ⟨hne, join_admitted relation, hgrows⟩
    | joinWith left right relation alternatives hne hadmitted =>
        exact (joinWith_eq_ok b left right relation alternatives id b').mpr
          ⟨hne, hadmitted, hgrows⟩

end Builder

namespace Workflow

-- Workflows of one graph are the same: a graph has one end at most.
theorem eq_of_toGraph_eq (v w : Workflow) (h : v.toGraph = w.toGraph) : v = w := by
  have hsinks : [v.terminal] = [w.terminal] := by
    rw [← v.sinks_eq, ← w.sinks_eq, h]
  cases v
  cases w
  cases h
  cases hsinks
  rfl

/-- The workflow of a sound graph, if it has one. -/
theorem ofSound_eq_ok (g : Graph) (sound : g.Sound) (w : Workflow) :
    ofSound g sound = .ok w ↔ w.toGraph = g := by
  unfold ofSound
  split
  case h_1 hnone =>
    refine ⟨fun h => (by cases h), fun h => ?_⟩
    rw [← h, w.sinks_eq] at hnone
    cases hnone
  case h_2 terminal hone =>
    refine ⟨fun h => (by cases h; rfl), fun h => ?_⟩
    rw [eq_of_toGraph_eq w ⟨g, terminal, sound, hone⟩ h]
  case h_3 hnone hmany =>
    refine ⟨fun h => (by cases h), fun h => ?_⟩
    rw [← h] at hmany
    exact absurd w.sinks_eq (hmany w.terminal)

/-- The workflow of an examined graph, if it has one and its ends are as declared. -/
theorem ofGraph_eq_ok (g : Graph) (initial : List Nat) (terminal : Nat) (w : Workflow) :
    ofGraph g initial terminal = .ok w ↔
      w.toGraph = g ∧ w.initialSteps = initial ∧ w.terminal = terminal := by
  unfold ofGraph
  split
  case h_1 fault hfault =>
    refine ⟨fun h => (by cases h), fun h => ?_⟩
    rw [← h.1, (Graph.sound_iff_fault? w.toGraph).mp w.sound] at hfault
    cases hfault
  case h_2 hnone =>
    rw [bind_eq_ok]
    constructor
    · rintro ⟨v, hv, h⟩
      have hgraph := (ofSound_eq_ok g _ v).mp hv
      by_cases hinitial : initial = v.scans
      · by_cases hterminal : terminal = v.terminal
        · rw [if_neg (not_not_intro hinitial), if_neg (not_not_intro hterminal)] at h
          cases h
          exact ⟨hgraph, hinitial.symm, hterminal.symm⟩
        · rw [if_neg (not_not_intro hinitial), if_pos hterminal] at h
          cases h
      · rw [if_pos hinitial] at h
        cases h
    · rintro ⟨hgraph, hinitial, hterminal⟩
      refine ⟨w, (ofSound_eq_ok g _ w).mpr hgraph, ?_⟩
      have hscans : initial = w.scans := hinitial.symm
      rw [if_neg (not_not_intro hscans), if_neg (not_not_intro hterminal.symm)]
      rfl

end Workflow

end Federation
