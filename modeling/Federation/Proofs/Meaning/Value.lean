import Federation.Proofs.Collect
import Federation.Proofs.Workflow.Stretch
import Mathlib.Data.List.Permutation

/-!
# What a Workflow Computes

The planner never looks at rows, so what its plans compute is stated for any
reading of the steps: a value for each scan, a function for each filter and each
projection, and for each join a function of two values that does not care which
side they come from. The value of a step is then what the step makes of the values
of its inputs, and the value of a workflow is that of its terminal.

Inputs have smaller numbers, so every step has a value. Along a stretch each step
works on the value of the one before, so the value at the end of a stretch is that
of its start, sent through the rest of the stretch.

## Main definitions

* `Interpretation`: A reading of the steps.
* `Interpretation.apply`: What a step makes of the values it is given.
* `Interpretation.along`: A value, sent through several steps.
* `Workflow.valueAt`: The value of a step.

## Theorems

* `valueAt_eq`: The value of a step, from those of its inputs.
* `exists_values`: Every step has a value.
* `along_stretch`: The value at the end of a stretch.
-/

namespace Federation

/-- A reading of the steps: what scans give, what filters and projections do to a
    value, and what joins make of two. -/
structure Interpretation (α : Type*) where
  scan : Nat → α
  transform : Nat → α → α
  join : Nat → α → α → α
  join_comm : ∀ id a b, join id a b = join id b a

variable {α : Type*}

namespace Interpretation

/-- What the step of a number makes of some values, if it takes as many. -/
def apply (I : Interpretation α) (w : Workflow) (id : Nat) (values : List α) : Option α :=
  match w.step? id, values with
  | some (.scan _ _ _), [] => some (I.scan id)
  | some (.filter _ _), [a] => some (I.transform id a)
  | some (.projection _ _), [a] => some (I.transform id a)
  | some (.join _ _), [a, b] => some (I.join id a b)
  | _, _ => none

/-- A value, sent through several steps one after the other. -/
def along (I : Interpretation α) (w : Workflow) (a : α) (ids : List Nat) : Option α :=
  ids.foldlM (fun b id => I.apply w id [b]) a

-- A step that is given as many values as it takes makes something of them.
theorem apply_isSome (I : Interpretation α) (w : Workflow) (id : Nat) (step : Step)
    (hstep : w.step? id = some step) (values : List α) (hlen : values.length = step.arity) :
    ∃ a, I.apply w id values = some a := by
  unfold apply
  rw [hstep]
  cases step with
  | scan _ _ _ =>
      rw [List.eq_nil_of_length_eq_zero hlen]
      exact ⟨_, rfl⟩
  | filter _ _ =>
      rcases List.length_eq_one_iff.mp hlen with ⟨a, rfl⟩
      exact ⟨_, rfl⟩
  | projection _ _ =>
      rcases List.length_eq_one_iff.mp hlen with ⟨a, rfl⟩
      exact ⟨_, rfl⟩
  | join _ _ =>
      rcases List.length_eq_two.mp hlen with ⟨a, b, rfl⟩
      exact ⟨_, rfl⟩

-- No step cares for the order of two values.
theorem apply_perm (I : Interpretation α) (w : Workflow) (id : Nat) (values : List α) (a b : α)
    (h : values.Perm [a, b]) : I.apply w id values = I.apply w id [a, b] := by
  rcases List.perm_pair.mp h with rfl | rfl
  · rfl
  · unfold apply
    cases w.step? id with
    | none => rfl
    | some step =>
        cases step with
        | scan _ _ _ => rfl
        | filter _ _ => rfl
        | projection _ _ => rfl
        | join _ _ => exact congrArg some (I.join_comm id b a)

end Interpretation

namespace Workflow

/-- The value of a step: what the step makes of the values of its inputs. -/
def valueAt (w : Workflow) (I : Interpretation α) (id : Nat) : Option α :=
  ((w.inputs id).attach.mapM fun u => w.valueAt I u.1).bind (I.apply w id)
termination_by id
decreasing_by exact inputs_lt w u.1 id u.2

/-- The value of a step is computed from the values of its inputs. -/
theorem valueAt_eq (w : Workflow) (I : Interpretation α) (id : Nat) :
    w.valueAt I id = ((w.inputs id).mapM (w.valueAt I)).bind (I.apply w id) := by
  rw [valueAt, List.mapM_subtype fun _ _ => rfl, List.unattach_attach]

-- Every step has a value, since its inputs have smaller numbers.
theorem valueAt_isSome (w : Workflow) (I : Interpretation α) (id : Nat) (hid : id < w.size) :
    ∃ a, w.valueAt I id = some a := by
  induction id using Nat.strongRecOn with
  | _ id ih =>
    rcases Graph.exists_step _ id hid with ⟨step, hstep⟩
    rcases mapM_isSome (w.valueAt I) (w.inputs id) (fun u hu => by
      have hlt := inputs_lt w u id hu
      exact ih u hlt (by omega)) with ⟨values, hvalues, hlen⟩
    rw [valueAt_eq, hvalues]
    exact I.apply_isSome w id step hstep values (by rw [hlen, inputs_length w id step hstep])

/-- The values of all steps, each computed from those of its inputs. -/
theorem exists_values (w : Workflow) (I : Interpretation α) :
    ∃ value : Nat → α, ∀ id < w.size, w.valueAt I id = some (value id) ∧
      I.apply w id ((w.inputs id).map value) = some (value id) := by
  rcases valueAt_isSome w I w.terminal (terminal_spec w).1 with ⟨default, _⟩
  -- Beyond the last step any value will do.
  have hvalue : ∀ id < w.size, w.valueAt I id = some ((w.valueAt I id).getD default) := by
    intro id hid
    rcases valueAt_isSome w I id hid with ⟨a, ha⟩
    rw [ha]
    rfl
  refine ⟨fun id => (w.valueAt I id).getD default, fun id hid => ⟨hvalue id hid, ?_⟩⟩
  have hinputs := mapM_eq_some (w.valueAt I) (fun id => (w.valueAt I id).getD default)
    (w.inputs id) fun u hu => by
      have hlt := inputs_lt w u id hu
      exact hvalue u (by omega)
  have heq := valueAt_eq w I id
  rw [hinputs, hvalue id hid] at heq
  exact heq.symm

/-- A value at the start of a stretch, sent through the rest, is the value at its
    end. -/
theorem along_stretch (w : Workflow) (I : Interpretation α) (value : Nat → α)
    (hvalue : ∀ id < w.size, I.apply w id ((w.inputs id).map value) = some (value id)) :
    ∀ id < w.size, I.along w (value id) (w.segment (w.next? id)).steps
      = some (value (w.stretchEnd id)) := by
  refine stretch_induction w (P := fun id =>
      I.along w (value id) (w.segment (w.next? id)).steps = some (value (w.stretchEnd id)))
    (fun id _ hstop => ?_) (fun id v hn hv ih => ?_)
  · rw [segment_stop w id hstop, (stretch_stop w id hstop).2.1]
    rfl
  · -- The next step works on this one alone.
    have hlt := (next?_lt hn).2
    have hinput : id ∈ w.inputs v := (mem_inputs w id v).mpr hn
    have hscan : v ∉ w.scans := fun hscan => by
      rw [inputs_scan w v hscan] at hinput
      exact absurd hinput List.not_mem_nil
    have hsingle : w.inputs v = [id] := by
      rcases inputs_inner w v hlt hscan hv with ⟨u, hu⟩
      rw [hu, List.mem_singleton] at hinput
      rw [hu, hinput]
    have happly := hvalue v hlt
    rw [hsingle] at happly
    rw [segment_go w id v hn hv, (stretch_go w id v hn hv).2.1]
    unfold Interpretation.along
    rw [List.foldlM_cons]
    show (I.apply w v [value id]).bind _ = _
    rw [show I.apply w v [value id] = some (value v) from happly]
    exact ih

end Workflow

end Federation
