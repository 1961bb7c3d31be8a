import Federation.Proofs.Collect
import Federation.Proofs.Workflow.Stretch

/-!
# Coverage

What a walk along a stretch finds out. Connectors drop out step by step, and the
walk stops short of its join as soon as none is left; what remains of a walk that
gets to the end are exactly the connectors that can run all of its steps. So the
outcome of a walk is a property of the stretch as a whole: whether some connector
can run every step of it.

Whether a connector can run steps hangs on what it declares and on nothing else,
so what holds of one copy of a connector carries over to another that declares the
same.

## Main definitions

* `canRunAt`, `canRunAll`: Whether a connector can run one step, or several.

## Theorems

* `reach_whole`: A walk gets to its join if some connector can run all steps.
* `cover_short`, `reach_short`: Otherwise it stops before, at the first step that none of
  them can run with all steps up to there.
* `reach_all_isJoinAt`: The two together.
-/

namespace Federation

-- A connector can run a step if it declares one of the alternatives.
theorem canRun_iff (c : Connector) (step : Step) :
    c.canRun step = true ↔ ∃ a ∈ step.alternatives, c.supports a = true := by
  unfold Connector.canRun Connector.capabilityFor? CapabilitySet.firstDeclared?
  rw [List.find?_isSome]
  rfl

-- The alternative that a connector uses is one that it declares.
theorem capabilityFor?_spec (c : Connector) (step : Step) (a : Capability)
    (h : c.capabilityFor? step = some a) : c.supports a = true ∧ a ∈ step.alternatives :=
  ⟨List.find?_some h, List.mem_of_find?_eq_some h⟩

-- What a connector can run is a matter of what it declares.
theorem canRun_congr (c d : Connector) (step : Step) (h : c.capabilities = d.capabilities) :
    c.canRun step = d.canRun step := by
  unfold Connector.canRun Connector.capabilityFor?
  rw [h]

namespace Workflow

/-- Whether a connector can run the step of a number. -/
def canRunAt (w : Workflow) (c : Connector) (id : Nat) : Bool := (w.step? id).any c.canRun

/-- Whether a connector can run each of several steps. -/
def canRunAll (w : Workflow) (ids : List Nat) (c : Connector) : Bool :=
  ids.all fun id => w.canRunAt c id

theorem canRunAt_iff (w : Workflow) (c : Connector) (id : Nat) :
    w.canRunAt c id = true ↔ ∃ step, w.step? id = some step ∧ c.canRun step = true :=
  Option.any_eq_true c.canRun (w.step? id)

theorem canRunAll_iff (w : Workflow) (ids : List Nat) (c : Connector) :
    w.canRunAll ids c = true ↔ ∀ id ∈ ids, w.canRunAt c id = true :=
  List.all_eq_true

theorem canRunAt_congr (w : Workflow) (c d : Connector) (id : Nat)
    (h : c.capabilities = d.capabilities) : w.canRunAt c id = w.canRunAt d id := by
  unfold canRunAt
  exact congrArg (Option.any · (w.step? id)) (funext fun step => canRun_congr c d step h)

theorem canRunAll_congr (w : Workflow) (c d : Connector) (ids : List Nat)
    (h : c.capabilities = d.capabilities) : w.canRunAll ids c = w.canRunAll ids d := by
  unfold canRunAll
  exact congrArg ids.all (funext fun id => canRunAt_congr w c d id h)

theorem ableAt_eq (w : Workflow) (id : Nat) (connectors : List Connector) :
    w.ableAt id connectors = connectors.filter fun c => w.canRunAt c id := by
  unfold ableAt canRunAt
  cases w.step? id with
  | none => exact (List.filter_eq_nil_iff.mpr fun c _ => Bool.false_ne_true).symm
  | some step => rfl

-- Narrowed to a step, connectors are those that can run the step of its number.
theorem ableTo_eq_filter (w : Workflow) (id : Nat) (step : Step) (h : w.step? id = some step)
    (connectors : List Connector) :
    ableTo step connectors = connectors.filter fun c => w.canRunAt c id := by
  rw [← ableAt_eq]
  unfold ableAt
  rw [h]

-- Narrowing to one step and then to the others is narrowing to all.
theorem filter_canRunAll_cons (w : Workflow) (id : Nat) (rest : List Nat)
    (connectors : List Connector) :
    (connectors.filter fun c => w.canRunAt c id).filter (w.canRunAll rest)
      = connectors.filter (w.canRunAll (id :: rest)) := by
  rw [List.filter_filter]
  refine List.filter_congr fun c _ => ?_
  unfold canRunAll
  rw [List.all_cons, Bool.and_comm]

theorem filter_canRunAll_nil (w : Workflow) (connectors : List Connector) :
    connectors.filter (w.canRunAll []) = connectors :=
  List.filter_eq_self.mpr fun _ _ => rfl

-- A walk along steps that some connector can run gets to the end.
theorem cover_whole (w : Workflow) (stop : Option Nat) (ids : List Nat)
    (running : List Connector) (h : running.filter (w.canRunAll ids) ≠ []) :
    w.cover stop running ids = ⟨ids, running.filter (w.canRunAll ids), stop⟩ := by
  induction ids generalizing running with
  | nil =>
      rw [filter_canRunAll_nil]
      rfl
  | cons id rest ih =>
      rw [← filter_canRunAll_cons] at h ⊢
      unfold cover
      rw [ableAt_eq]
      cases hn : running.filter fun c => w.canRunAt c id with
      | nil =>
          rw [hn] at h
          exact absurd rfl h
      | cons c narrowed =>
          rw [hn] at h
          simp only [ih (c :: narrowed) h]

/-- A walk along steps that no connector can run stops at the first that no connector can
    run with those before it. -/
theorem cover_short (w : Workflow) (stop : Option Nat) (ids : List Nat)
    (running : List Connector) (hrun : running ≠ [])
    (h : running.filter (w.canRunAll ids) = []) :
    ∃ before id after, ids = before ++ id :: after ∧
      w.cover stop running ids = ⟨before, running.filter (w.canRunAll before), some id⟩ ∧
        running.filter (w.canRunAll before) ≠ [] ∧
          running.filter (w.canRunAll (before ++ [id])) = [] := by
  induction ids generalizing running with
  | nil =>
      rw [filter_canRunAll_nil] at h
      exact absurd h hrun
  | cons id rest ih =>
      rw [← filter_canRunAll_cons] at h
      unfold cover
      rw [ableAt_eq]
      cases hn : running.filter fun c => w.canRunAt c id with
      | nil =>
          refine ⟨[], id, rest, rfl, ?_, ?_, ?_⟩
          · rw [filter_canRunAll_nil]
          · rw [filter_canRunAll_nil]
            exact hrun
          · rw [List.nil_append, ← filter_canRunAll_cons, hn]
            rfl
      | cons c narrowed =>
          rw [hn] at h
          rcases ih (c :: narrowed) (List.cons_ne_nil _ _) h with
            ⟨before, v, after, rfl, hcover, hsome, hnone⟩
          refine ⟨id :: before, v, after, rfl, ?_, ?_, ?_⟩
          · simp only [hcover]
            rw [← filter_canRunAll_cons w id before, hn]
          · rw [← filter_canRunAll_cons, hn]
            exact hsome
          · rw [List.cons_append, ← filter_canRunAll_cons, hn]
            exact hnone

/-- What a step drags along is walked to the end if some connector can run it. -/
theorem reach_whole (w : Workflow) (id : Nat) (running : List Connector)
    (h : running.filter (w.canRunAll (w.segment (w.next? id)).steps) ≠ []) :
    w.reach (w.next? id) running
      = ⟨(w.segment (w.next? id)).steps,
          running.filter (w.canRunAll (w.segment (w.next? id)).steps), w.downstream id⟩ :=
  cover_whole w _ _ running h

/-- Otherwise the walk stops at the first step that no connector can run with those before
    it, which is no join. -/
theorem reach_short (w : Workflow) (id : Nat) (hid : id < w.size) (running : List Connector)
    (hrun : running ≠ [])
    (h : running.filter (w.canRunAll (w.segment (w.next? id)).steps) = []) :
    ∃ before v after, (w.segment (w.next? id)).steps = before ++ v :: after ∧
      w.reach (w.next? id) running
        = ⟨before, running.filter (w.canRunAll before), some v⟩ ∧ w.isJoinAt v = false ∧
          running.filter (w.canRunAll before) ≠ [] ∧
            running.filter (w.canRunAll (before ++ [v])) = [] := by
  rcases cover_short w (w.segment (w.next? id)).join? _ running hrun h with
    ⟨before, v, after, hsplit, hcover, hsome, hnone⟩
  have hjoin := segment_steps w id hid v (by
    rw [hsplit]
    simp)
  rw [Graph.mem_joins, Bool.not_eq_true] at hjoin
  exact ⟨before, v, after, hsplit, hcover, hjoin, hsome, hnone⟩

-- A stretch leads to a join, if it leads anywhere.
theorem downstream_all_isJoinAt (w : Workflow) (id : Nat) (hid : id < w.size) :
    (w.downstream id).all w.isJoinAt = true := by
  cases hd : w.downstream id with
  | none => rfl
  | some join => exact (Graph.mem_joins _ join).mp (downstream_spec w id join hid hd).1

/-- A walk gets to its join exactly if some connector can run all of it. -/
theorem reach_all_isJoinAt (w : Workflow) (id : Nat) (hid : id < w.size)
    (running : List Connector) (hrun : running ≠ []) :
    (w.reach (w.next? id) running).stoppedAt.all w.isJoinAt = true ↔
      running.filter (w.canRunAll (w.segment (w.next? id)).steps) ≠ [] := by
  constructor
  · intro hall hnil
    rcases reach_short w id hid running hrun hnil with ⟨_, v, _, _, hreach, hjoin, _⟩
    rw [hreach, Option.all_some, hjoin] at hall
    cases hall
  · intro h
    rw [reach_whole w id running h]
    exact downstream_all_isJoinAt w id hid

end Workflow

end Federation
