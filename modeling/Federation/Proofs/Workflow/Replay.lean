import Federation.Proofs.Wire.Workflow
import Federation.Proofs.Workflow.Convergence

/-!
# Reading Back and Building

A workflow that is read back was examined, but not built. What the examination lets
pass can be built all the same: taken in order, each step has its inputs behind it, and
they feed nothing else, so a call can add it. The links that come about are the same,
though perhaps not in the same order, which nobody can tell from what a step is fed by
and where it leads.

There is one thing that a builder does and the examination does not. The capability of
a filter is settled by the builder, from the class of the column and the operator of
the relation; the class is not written, and the examination asks only whether the
capability is one of the filter capabilities. So a filter for equality may be read back
that is to be executed as a comparison, and no call adds such a step. These filters
are all that is too much.

## Main definitions

* `Step.Fits`: The capability of a filter is one for its operator.
* `Builder.Accepted`: No call is refused.
* `Workflow.Same`: Workflows that nobody can tell apart.
* `Workflow.Buildable`: Calls build the same workflow.
* `Workflow.Replays`: A graph has the first steps of a workflow.

## Theorems

* `after_fits`: Whatever is built, its filters fit.
* `Replays.append`: The next step joins those before it.
* `exists_replay`: A workflow whose filters fit is built step by step.
* `buildable_iff`: What can be built are the workflows whose filters fit.
* `readable_iff_buildable`: What is read back can be built, up to filters that do not
  fit; what was built can be read back, up to literals that are not finite.
* `mismatched_not_buildable`: A filter that does not fit is read back.
* `retried_readable`: A join that was built is read back.
-/

namespace Federation

/-- Whether the capability of a filter is one that its operator needs, for columns of
    some class. -/
def Step.Fits : Step → Prop
  | .filter relation operation =>
    ∃ column, Capability.filter? column relation.operator = some operation
  | _ => True

/-- Whether all filters of a graph have capabilities that their operators need. -/
def Graph.FiltersFit (g : Graph) : Prop := ∀ step ∈ g.steps, step.Fits

namespace Builder

/-- Whether a call says all that it asks for. A plain join does not: it leaves out the
    capabilities. -/
def Call.SpelledOut : Call → Prop
  | .join _ _ _ => False
  | _ => True

/-- Whether none of the calls, the latest first, is refused. -/
def Accepted : List Call → Prop
  | [] => True
  | call :: past => (∃ added, (after past).perform call = .ok added) ∧ Accepted past

/-- What a call adds is admitted, is fed by as many steps as it needs and fits. -/
theorem Call.Adds.spec {call : Call} {feeds : List Nat} {step : Step} (h : call.Adds feeds step) :
    step.fault? = none ∧ feeds.length = step.arity ∧ feeds.Nodup ∧ step.Fits := by
  cases h with
  | scan _ _ _ => exact ⟨rfl, rfl, List.nodup_nil, trivial⟩
  | filter up column relation operation needs =>
      refine ⟨?_, rfl, List.nodup_singleton up, column, needs⟩
      rw [Step.fault?, if_pos (Capability.isFilter_of_filter? needs)]
  | project up _ => exact ⟨rfl, rfl, List.nodup_singleton up, trivial⟩
  | window up _ _ => exact ⟨rfl, rfl, List.nodup_singleton up, trivial⟩
  | join left right relation different =>
      exact ⟨join_admitted relation, rfl, List.pairwise_pair.mpr different, trivial⟩
  | joinWith left right relation alternatives different admitted =>
      exact ⟨admitted, rfl, List.pairwise_pair.mpr different, trivial⟩

/-- Every step that is admitted and fits is added by some call. -/
theorem exists_adds (feeds : List Nat) (step : Step) (hadmitted : step.fault? = none)
    (hlen : feeds.length = step.arity) (hnodup : feeds.Nodup) (hfits : step.Fits) :
    ∃ call : Call, call.Adds feeds step ∧ call.SpelledOut := by
  cases step with
  | scan table cluster columns =>
      rw [List.eq_nil_of_length_eq_zero hlen]
      exact ⟨_, .scan table cluster columns, trivial⟩
  | filter relation operation =>
      rcases List.length_eq_one_iff.mp hlen with ⟨up, rfl⟩
      rcases hfits with ⟨column, hneeds⟩
      exact ⟨_, .filter up column relation operation hneeds, trivial⟩
  | projection columns window =>
      rcases List.length_eq_one_iff.mp hlen with ⟨up, rfl⟩
      cases window with
      | none => exact ⟨_, .project up columns, trivial⟩
      | some window => exact ⟨_, .window up columns window, trivial⟩
  | join relation alternatives =>
      rcases List.length_eq_two.mp hlen with ⟨left, right, rfl⟩
      exact ⟨_, .joinWith left right relation alternatives (List.pairwise_pair.mp hnodup) hadmitted,
        trivial⟩

/-- A call is accepted wherever its step can be fed and there is room. -/
theorem exists_perform (past : List Call) (call : Call) (feeds : List Nat) (step : Step)
    (hadds : call.Adds feeds step) (hroom : (after past).graph.size < Graph.capacity)
    (hfree : ∀ u ∈ feeds,
      u < (after past).graph.size ∧ (after past).graph.successors u = []) :
    (∃ added, (after past).perform call = .ok added) ∧
      (after (call :: past)).graph = (after past).graph.append feeds step := by
  rcases hadds.spec with ⟨hadmitted, hlen, hnodup, _⟩
  have hsound := (after past).sound.append hroom hadmitted hlen hnodup hfree
  have hperform : (after past).perform call = .ok ((after past).graph.size, ⟨_, hsound⟩) :=
    (perform_eq_ok _ call _ _).mpr ⟨feeds, step, hadds, hfree, hroom, rfl, rfl⟩
  refine ⟨⟨_, hperform⟩, ?_⟩
  rw [after, hperform]

/-- Whatever calls were made, the filters that were added fit. -/
theorem after_fits (calls : List Call) : (after calls).graph.FiltersFit := by
  induction calls with
  | nil => exact fun step hstep => absurd hstep List.not_mem_nil
  | cons call past ih =>
      rw [after]
      cases hperform : (after past).perform call with
      | error _ => exact ih
      | ok added =>
          rcases (perform_eq_ok _ call added.1 added.2).mp hperform with
            ⟨feeds, new, hadds, hgrows⟩
          intro step hstep
          change step ∈ added.2.graph.steps at hstep
          rw [hgrows.graph_eq, Graph.append, List.mem_append, List.mem_singleton] at hstep
          rcases hstep with hstep | rfl
          · exact ih step hstep
          · exact hadds.spec.2.2.2

end Builder

namespace Workflow

/-- Workflows with the same steps under the same numbers, linked in the same way in both
    directions, and with the same ends. -/
structure Same (v w : Workflow) : Prop where
  steps_eq : v.steps = w.steps
  next?_eq : ∀ u, v.next? u = w.next? u
  inputs_eq : ∀ u, v.inputs u = w.inputs u
  initialSteps_eq : v.initialSteps = w.initialSteps
  terminal_eq : v.terminal = w.terminal

/-- Whether calls that are all accepted and spelled out build the same workflow. -/
def Buildable (w : Workflow) : Prop :=
  ∃ calls, Builder.Accepted calls ∧ (∀ call ∈ calls, call.SpelledOut) ∧
    ∃ v, (Builder.after calls).build = .ok v ∧ v.Same w

-- Which steps lead nowhere does not depend on the order of the links.
theorem sinks_of_links (f g : Graph) (hsteps : f.steps = g.steps)
    (hlinks : ∀ l, l ∈ f.links ↔ l ∈ g.links) : f.sinks = g.sinks := by
  have hids : f.ids = g.ids := by
    unfold Graph.ids Graph.size
    rw [hsteps]
  unfold Graph.sinks
  rw [hids]
  refine List.filter_congr fun id _ => ?_
  rw [Bool.eq_iff_iff, List.isEmpty_iff, List.isEmpty_iff, List.eq_nil_iff_forall_not_mem,
    List.eq_nil_iff_forall_not_mem]
  refine forall_congr' fun v => not_congr ?_
  rw [Graph.mem_successors, Graph.mem_successors, hlinks]

-- It makes no difference in which order links are listed.
theorem same_of_links (v w : Workflow) (hsteps : v.steps = w.steps)
    (hlinks : ∀ l, l ∈ v.links ↔ l ∈ w.links) : v.Same w := by
  have hnext : ∀ u, v.next? u = w.next? u := by
    intro u
    refine Option.ext fun a => ?_
    rw [next?_eq_some, next?_eq_some, hlinks]
  constructor
  case steps_eq => exact hsteps
  case next?_eq => exact hnext
  case inputs_eq =>
    intro u
    refine Ascending.ext (ascending_pairwise _) (ascending_pairwise _) fun a => ?_
    rw [mem_inputs, mem_inputs, hnext]
  case initialSteps_eq =>
    unfold initialSteps Graph.scans Graph.ids Graph.size Graph.step?
    rw [hsteps]
  case terminal_eq =>
    have hv := terminal_last v
    have hw := terminal_last w
    unfold Graph.size at hv hw
    rw [hsteps] at hv
    omega

/-- What a graph has of a workflow once its first steps have been put into it: these
    steps, and the links that lead to them. -/
structure Replays (w : Workflow) (n : Nat) (g : Graph) : Prop where
  steps_eq : g.steps = w.steps.take n
  mem_links : ∀ u v, ⟨u, v⟩ ∈ g.links ↔ v < n ∧ ⟨u, v⟩ ∈ w.links

theorem replays_empty (w : Workflow) : w.Replays 0 Graph.empty := by
  refine ⟨rfl, fun u v => ?_⟩
  exact ⟨fun h => absurd h List.not_mem_nil, fun h => absurd h.1 (Nat.not_lt_zero v)⟩

theorem Replays.size_eq {w : Workflow} {n : Nat} {g : Graph} (h : w.Replays n g)
    (hn : n ≤ w.size) : g.size = n := by
  rw [Graph.size, h.steps_eq, List.length_take]
  exact Nat.min_eq_left hn

/-- The inputs of the next step are there, and lead to nothing before it. -/
theorem Replays.free {w : Workflow} {n : Nat} {g : Graph} (h : w.Replays n g) (hn : n ≤ w.size)
    (u : Nat) (hu : u ∈ w.inputs n) : u < g.size ∧ g.successors u = [] := by
  refine ⟨by rw [h.size_eq hn]; exact inputs_lt w u n hu, ?_⟩
  refine List.eq_nil_iff_forall_not_mem.mpr fun v hv => ?_
  rcases (h.mem_links u v).mp ((Graph.mem_successors g u v).mp hv) with ⟨hlt, hlink⟩
  have hnext := (next?_eq_some w u v).mpr hlink
  rw [(mem_inputs w u n).mp hu, Option.some.injEq] at hnext
  omega

/-- Fed by its inputs, the next step joins those before it. -/
theorem Replays.append {w : Workflow} {n : Nat} {g : Graph} (h : w.Replays n g) (step : Step)
    (hstep : w.step? n = some step) : w.Replays (n + 1) (g.append (w.inputs n) step) := by
  have hsize := h.size_eq (Nat.le_of_lt (Graph.step?_eq_some_lt hstep))
  constructor
  case steps_eq =>
    rw [Graph.append, h.steps_eq, List.take_add_one]
    change _ ++ [step] = _ ++ (w.step? n).toList
    rw [hstep]
    rfl
  case mem_links =>
    intro u v
    rw [Graph.append, List.mem_append, h.mem_links, hsize, List.mem_map]
    constructor
    · rintro (⟨hlt, hlink⟩ | ⟨a, ha, heq⟩)
      · exact ⟨Nat.lt_succ_of_lt hlt, hlink⟩
      · cases heq
        exact ⟨Nat.lt_succ_self n, (next?_eq_some w u n).mp ((mem_inputs w u n).mp ha)⟩
    · rintro ⟨hlt, hlink⟩
      by_cases hv : v = n
      · rw [hv] at hlink ⊢
        exact Or.inr ⟨u, (mem_inputs w u n).mpr ((next?_eq_some w u n).mpr hlink), rfl⟩
      · exact Or.inl ⟨by omega, hlink⟩

/-- The steps of a workflow whose filters fit are built one after the other. -/
theorem exists_replay (w : Workflow) (hfits : w.toGraph.FiltersFit) (n : Nat) (hn : n ≤ w.size) :
    ∃ calls, Builder.Accepted calls ∧ (∀ call ∈ calls, call.SpelledOut) ∧
      w.Replays n (Builder.after calls).graph := by
  induction n with
  | zero =>
      exact ⟨[], trivial, fun call hcall => absurd hcall List.not_mem_nil, replays_empty w⟩
  | succ n ih =>
      have hle := Nat.le_of_succ_le hn
      rcases ih hle with ⟨past, haccepted, hspelled, hreplays⟩
      rcases Graph.exists_step w.toGraph n hn with ⟨step, hstep⟩
      have hmem : step ∈ w.steps := List.mem_of_getElem? hstep
      rcases Builder.exists_adds (w.inputs n) step (w.sound.admitted step hmem)
        (inputs_length w n step hstep) (inputs_nodup w n) (hfits step hmem) with
        ⟨call, hadds, hcall⟩
      have hroom : (Builder.after past).graph.size < Graph.capacity := by
        rw [hreplays.size_eq hle]
        exact Nat.lt_of_lt_of_le hn w.sound.size_le
      rcases Builder.exists_perform past call (w.inputs n) step hadds hroom
        (hreplays.free hle) with ⟨hperform, hgraph⟩
      refine ⟨call :: past, ⟨hperform, haccepted⟩, List.forall_mem_cons.mpr ⟨hcall, hspelled⟩, ?_⟩
      rw [hgraph]
      exact hreplays.append step hstep

/-- What was built has filters that fit. -/
theorem build_fits (calls : List Builder.Call) (v : Workflow)
    (hv : (Builder.after calls).build = .ok v) : v.toGraph.FiltersFit := by
  rw [(ofSound_eq_ok _ _ v).mp hv]
  exact Builder.after_fits calls

/-- What can be built are the workflows whose filters fit. -/
theorem buildable_iff (w : Workflow) : w.Buildable ↔ w.toGraph.FiltersFit := by
  constructor
  · rintro ⟨calls, _, _, v, hv, hsame⟩ step hstep
    rw [← hsame.steps_eq] at hstep
    exact build_fits calls v hv step hstep
  · intro hfits
    rcases exists_replay w hfits w.size (Nat.le_refl _) with
      ⟨calls, haccepted, hspelled, hreplays⟩
    have hsteps : (Builder.after calls).graph.steps = w.steps := by
      rw [hreplays.steps_eq]
      exact List.take_length
    -- No link leads beyond the last step.
    have hlinks : ∀ l, l ∈ (Builder.after calls).graph.links ↔ l ∈ w.links := fun l =>
      (hreplays.mem_links l.source l.target).trans
        ⟨fun h => h.2, fun h => ⟨(w.sound.forward l h).2, h⟩⟩
    have hsinks : (Builder.after calls).graph.sinks = [w.terminal] := by
      rw [sinks_of_links _ w.toGraph hsteps hlinks]
      exact w.sinks_eq
    let v : Workflow := ⟨_, w.terminal, (Builder.after calls).sound, hsinks⟩
    exact ⟨calls, haccepted, hspelled, v, (ofSound_eq_ok _ _ v).mpr rfl,
      same_of_links v w hsteps hlinks⟩

end Workflow

/-- A workflow that is read back can be built exactly if its filters fit; and one that
    was built has filters that fit, passes the examination of its graph and its ends, and
    is read back from what is written of it exactly if its literals are finite. -/
theorem readable_iff_buildable (w : Workflow) :
    (∀ j, Workflow.ofJson j = .ok w → (w.Buildable ↔ w.toGraph.FiltersFit)) ∧
      ∀ calls, (Builder.after calls).build = .ok w →
        w.toGraph.FiltersFit ∧
          Workflow.ofGraph w.toGraph w.initialSteps w.terminal = .ok w ∧
            (Workflow.ofJson w.toJson = .ok w ↔ w.toGraph.FloatsFinite) := by
  refine ⟨fun _ _ => w.buildable_iff, fun calls h => ⟨Workflow.build_fits calls w h, ?_, ?_⟩⟩
  · exact (Workflow.ofGraph_eq_ok _ _ _ w).mpr ⟨rfl, rfl, rfl⟩
  · rw [Workflow.readsBack]
    exact and_iff_left rfl

/-- A filter for equality that is to be executed as a comparison. -/
def mismatchedRead : Workflow where
  steps := [.scan ⟨⟨"shop"⟩, "users"⟩ ⟨"east"⟩ [],
    .filter ⟨.boolean true, .eq, .boolean true⟩ .filterPkGt]
  links := [⟨0, 1⟩]
  terminal := 1
  sound := (Graph.sound_iff_fault? _).mpr rfl
  sinks_eq := rfl

/-- A filter that does not fit is read back, and no calls build it. -/
theorem mismatched_not_buildable :
    Workflow.ofJson mismatchedRead.toJson = .ok mismatchedRead ∧ ¬mismatchedRead.Buildable := by
  constructor
  · rfl
  · rw [Workflow.buildable_iff]
    intro hfits
    rcases hfits _ (List.mem_cons_of_mem _ List.mem_cons_self) with ⟨column, hneeds⟩
    cases column with
    | partitionKey => cases hneeds
    | indexed => cases hneeds
    | nonIndexed => cases hneeds

/-- A join that was built is read back, and can be built from what is read. -/
theorem retried_readable :
    ∃ w, (Builder.after retried).build = .ok w ∧ Workflow.ofJson w.toJson = .ok w ∧
      w.Buildable := by
  have hbuilt : ∃ w, (Builder.after retried).build = .ok w := ⟨_, rfl⟩
  rcases hbuilt with ⟨w, hw⟩
  rcases (readable_iff_buildable w).2 retried hw with ⟨hfits, _, hread⟩
  have hfinite : w.toGraph.FloatsFinite := by
    rw [(Workflow.ofSound_eq_ok _ _ w).mp hw]
    exact List.forall_mem_cons.mpr ⟨trivial, List.forall_mem_cons.mpr ⟨trivial,
      List.forall_mem_singleton.mpr ⟨trivial, trivial⟩⟩⟩
  exact ⟨w, hw, hread.mpr hfinite,
    ((readable_iff_buildable w).1 w.toJson (hread.mpr hfinite)).mpr hfits⟩

end Federation
