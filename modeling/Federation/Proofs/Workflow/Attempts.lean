import Federation.Proofs.Workflow.Editing

/-!
# Refused Calls Leave No Trace

Calls on a builder may be refused in any number and at any place among those that succeed.
As no call writes before it is certain to succeed, the refused ones might as well not have
been made: without them the same builder comes about, by calls that succeed all over again
and give the same numbers.

The calls that succeed are recorded with their numbers, and the record tells all about the
links. A step leads to the step of the call that asked to be fed by it, of which there is
one at most; so the ends of a builder are the numbers that were given and never asked for,
and on them depends what is handed out.

## Main definitions

* `Builder.Call.feeds`: The steps that a call asks to be fed by.
* `Draft.after`, `Draft.record`: What calls leave behind, and which of them succeed.
* `Recorded`: What a record tells about a builder.
* `Built`: What is handed out after calls.
* `Traceless`: What calls leave behind depends on those that succeed.

## Theorems

* `after_accepted`, `record_accepted`: The refused calls might as well not have been made.
* `Recorded.perform`: What one more call adds to the record.
* `recorded_after`: What the record tells after calls.
* `build_eq_iff`: What is handed out.
* `calls_traceless`: All of this after any calls.
* `refusedCalls_traceless`: Three scans and a join among calls that are refused.
-/

namespace Federation

open Builder (Call)

/-- The steps that a call asks to be fed by. -/
def Builder.Call.feeds : Call → List Nat
  | .scan _ _ _ => []
  | .filter up _ _ => [up]
  | .project up _ => [up]
  | .window up _ _ => [up]
  | .join left right _ => [left, right]
  | .joinWith left right _ _ => [left, right]

theorem Builder.Call.Adds.feeds_eq {call : Call} {feeds : List Nat} {step : Step}
    (h : call.Adds feeds step) : call.feeds = feeds := by
  cases h with
  | scan _ _ _ => rfl
  | filter _ _ _ _ _ => rfl
  | project _ _ => rfl
  | window _ _ _ => rfl
  | join _ _ _ _ => rfl
  | joinWith _ _ _ _ _ _ => rfl

namespace Draft

/-- The draft after calls that are made one after another. -/
def after (d : Draft) : List Call → Draft
  | [] => d
  | call :: rest => ((perform call).on d).2.after rest

/-- The calls that succeed, with the numbers of their steps. -/
def record (d : Draft) : List Call → List (Call × Nat)
  | [] => []
  | call :: rest =>
    match (perform call).on d with
    | (.ok id, d') => (call, id) :: d'.record rest
    | (.error _, d') => d'.record rest

/-- The calls that succeed. -/
def accepted (d : Draft) (calls : List Call) : List Call := (d.record calls).map Prod.fst

/-- The numbers that are given. -/
def given (d : Draft) (calls : List Call) : List Nat := (d.record calls).map Prod.snd

/-! ### Calls one after another -/

theorem after_append (d : Draft) (calls more : List Call) :
    d.after (calls ++ more) = (d.after calls).after more := by
  induction calls generalizing d with
  | nil => rfl
  | cons call rest ih => exact ih _

theorem record_append (d : Draft) (calls more : List Call) :
    d.record (calls ++ more) = d.record calls ++ (d.after calls).record more := by
  induction calls generalizing d with
  | nil => rfl
  | cons call rest ih =>
      rw [List.cons_append, record, record, after]
      cases (perform call).on d with
      | mk answer d' =>
          cases answer with
          | ok id => exact congrArg _ (ih d')
          | error _ => exact ih d'

section Step

variable {b b' : Builder} {call : Call} {id : Nat} {e : WorkflowError}

theorem perform_ok (h : b.perform call = .ok (id, b')) :
    (perform call).on b.draft = (.ok id, b'.draft) := by
  rw [perform_on, h]
  rfl

theorem perform_error (h : b.perform call = .error e) :
    (perform call).on b.draft = (.error e, b.draft) := by
  rw [perform_on, h]
  rfl

theorem after_cons_ok (h : b.perform call = .ok (id, b')) (rest : List Call) :
    b.draft.after (call :: rest) = b'.draft.after rest := by
  rw [after, perform_ok h]

theorem after_cons_error (h : b.perform call = .error e) (rest : List Call) :
    b.draft.after (call :: rest) = b.draft.after rest := by
  rw [after, perform_error h]

theorem record_cons_ok (h : b.perform call = .ok (id, b')) (rest : List Call) :
    b.draft.record (call :: rest) = (call, id) :: b'.draft.record rest := by
  rw [record, perform_ok h]

theorem record_cons_error (h : b.perform call = .error e) (rest : List Call) :
    b.draft.record (call :: rest) = b.draft.record rest := by
  rw [record, perform_error h]

end Step

/-- The refused calls might as well not have been made, -/
theorem after_accepted (b : Builder) (calls : List Call) :
    b.draft.after (b.draft.accepted calls) = b.draft.after calls := by
  unfold accepted
  induction calls generalizing b with
  | nil => rfl
  | cons call rest ih =>
      cases h : b.perform call with
      | ok added =>
          rw [record_cons_ok h, List.map_cons, after_cons_ok h, after_cons_ok h]
          exact ih added.2
      | error e =>
          rw [record_cons_error h, after_cons_error h]
          exact ih b

/-- and those that succeed do so all over again. -/
theorem record_accepted (b : Builder) (calls : List Call) :
    b.draft.record (b.draft.accepted calls) = b.draft.record calls := by
  unfold accepted
  induction calls generalizing b with
  | nil => rfl
  | cons call rest ih =>
      cases h : b.perform call with
      | ok added =>
          rw [record_cons_ok h, List.map_cons, record_cons_ok h]
          exact congrArg _ (ih added.2)
      | error e =>
          rw [record_cons_error h]
          exact ih b

/-- Made on the empty draft, calls leave the draft of a builder behind. -/
theorem after_eq_draft (past : List Call) :
    empty.after past.reverse = (Builder.after past).draft := by
  induction past with
  | nil => rfl
  | cons call past ih =>
      rw [List.reverse_cons, after_append, ih, Builder.after]
      cases h : (Builder.after past).perform call with
      | ok added => exact after_cons_ok h []
      | error _ => exact after_cons_error h []

end Draft

/-! ### Records -/

/-- What a record of calls tells about a builder. -/
structure Recorded (record : List (Call × Nat)) (b : Builder) : Prop where
  ids_eq : record.map Prod.snd = List.range b.graph.size
  /-- A step leads to the steps of the calls that asked to be fed by it. -/
  mem_successors : ∀ u v, v ∈ b.graph.successors u ↔ ∃ call, (call, v) ∈ record ∧ u ∈ call.feeds

namespace Recorded

variable {record : List (Call × Nat)} {b b' : Builder} {call : Call} {id : Nat}

theorem empty : Recorded [] Builder.empty := by
  refine ⟨rfl, fun u v => ⟨fun h => absurd h List.not_mem_nil, ?_⟩⟩
  rintro ⟨_, h, _⟩
  exact absurd h List.not_mem_nil

/-- A call that succeeds adds itself and the number of its step. -/
theorem perform (h : Recorded record b) (hcall : b.perform call = .ok (id, b')) :
    Recorded (record ++ [(call, id)]) b' := by
  rcases (Builder.perform_eq_ok b call id b').mp hcall with ⟨feeds, step, hadds, hgrows⟩
  have hfeeds := hadds.feeds_eq
  constructor
  case ids_eq =>
    rw [List.map_append, h.ids_eq, hgrows.graph_eq, Graph.size_append, List.range_succ,
      hgrows.id_eq]
    rfl
  case mem_successors =>
    intro u v
    rw [hgrows.graph_eq, Graph.successors_append, List.mem_append, h.mem_successors,
      List.mem_replicate, ← Nat.pos_iff_ne_zero, List.count_pos_iff, ← hgrows.id_eq, ← hfeeds]
    simp only [List.mem_append, List.mem_singleton, Prod.mk.injEq, or_and_right, exists_or]
    refine or_congr_right ⟨?_, ?_⟩
    · rintro ⟨hmem, rfl⟩
      exact ⟨call, ⟨rfl, rfl⟩, hmem⟩
    · rintro ⟨_, ⟨rfl, rfl⟩, hmem⟩
      exact ⟨hmem, rfl⟩

/-- Nothing comes after a step that was not asked for. -/
theorem successors_eq_nil (h : Recorded record b) (u : Nat) :
    b.graph.successors u = [] ↔ ∀ call ∈ record.map Prod.fst, u ∉ call.feeds := by
  rw [List.eq_nil_iff_forall_not_mem]
  simp only [h.mem_successors]
  constructor
  · intro hnone call hcall hu
    rcases List.mem_map.mp hcall with ⟨⟨_, v⟩, hmem, rfl⟩
    exact hnone v ⟨_, hmem, hu⟩
  · rintro hnone v ⟨call, hmem, hu⟩
    exact hnone call (List.mem_map.mpr ⟨_, hmem, rfl⟩) hu

end Recorded

/-- What the record tells after calls. -/
theorem recorded_after (past : List Call) :
    Recorded (Draft.empty.record past.reverse) (Builder.after past) := by
  induction past with
  | nil => exact Recorded.empty
  | cons call past ih =>
      rw [List.reverse_cons, Draft.record_append, Draft.after_eq_draft, Builder.after]
      cases h : (Builder.after past).perform call with
      | ok added =>
          rw [Draft.record_cons_ok h]
          exact ih.perform h
      | error e =>
          rw [Draft.record_cons_error h, Draft.record, List.append_nil]
          exact ih

/-! ### What is handed out -/

/-- Whether calls added a step that nothing else asked to be fed by. -/
def Unlinked (calls : List Call) (id : Nat) : Prop :=
  id ∈ Draft.empty.given calls ∧ ∀ call ∈ Draft.empty.accepted calls, id ∉ call.feeds

/-- What is handed out after calls. -/
inductive Built (calls : List Call) : Except WorkflowError Workflow → Prop
  | empty (h : Draft.empty.accepted calls = []) : Built calls (.error .empty)
  | several (ends : List Nat) (htwo : 2 ≤ ends.length) (hascending : Ascending ends)
      (hends : ∀ id, id ∈ ends ↔ Unlinked calls id) :
      Built calls (.error (.multipleTerminals ends))
  | sole (w : Workflow) (hgraph : w.toGraph = (Draft.empty.after calls).graph)
      (hinitial : w.initialSteps = (Draft.empty.after calls).scans)
      (hterminal : ∀ id, Unlinked calls id ↔ id = w.terminal) : Built calls (.ok w)

-- Only a call that succeeds gives a number.
theorem Unlinked.accepted_ne_nil {calls : List Call} {id : Nat} (h : Unlinked calls id) :
    Draft.empty.accepted calls ≠ [] := by
  intro hnil
  have hgiven := h.1
  unfold Draft.accepted at hnil
  unfold Draft.given at hgiven
  rw [List.map_eq_nil_iff.mp hnil] at hgiven
  exact List.not_mem_nil hgiven

-- Several ends are not none,
theorem accepted_ne_nil_of_two {calls : List Call} {ends : List Nat} (htwo : 2 ≤ ends.length)
    (hends : ∀ id, id ∈ ends ↔ Unlinked calls id) : Draft.empty.accepted calls ≠ [] := by
  rcases List.exists_mem_of_ne_nil ends (List.ne_nil_of_length_pos (by omega)) with ⟨id, hid⟩
  exact ((hends id).mp hid).accepted_ne_nil

-- and they are not one.
theorem not_sole_of_two {ends : List Nat} (htwo : 2 ≤ ends.length) (hascending : Ascending ends)
    (terminal : Nat) : ¬∀ id, id ∈ ends ↔ id = terminal := by
  intro h
  rcases ends with _ | ⟨a, _ | ⟨b, rest⟩⟩
  · exact absurd htwo (Nat.not_succ_le_zero 1)
  · exact absurd htwo (Nat.not_succ_le_self 1)
  · have ha := (h a).mp List.mem_cons_self
    have hb := (h b).mp (List.mem_cons_of_mem _ List.mem_cons_self)
    exact (List.nodup_cons.mp hascending.nodup).1 (ha.trans hb.symm ▸ List.mem_cons_self)

/-- One thing is handed out. -/
theorem Built.unique {calls : List Call} {r r' : Except WorkflowError Workflow}
    (h : Built calls r) (h' : Built calls r') : r = r' := by
  cases h with
  | empty hnil =>
      cases h' with
      | empty _ => rfl
      | several _ htwo _ hends => exact absurd hnil (accepted_ne_nil_of_two htwo hends)
      | sole w _ _ hterminal => exact absurd hnil ((hterminal _).mpr rfl).accepted_ne_nil
  | several ends htwo hascending hends =>
      cases h' with
      | empty hnil => exact absurd hnil (accepted_ne_nil_of_two htwo hends)
      | several ends' _ hascending' hends' =>
          rw [hascending.ext hascending' fun id => (hends id).trans (hends' id).symm]
      | sole w _ _ hterminal =>
          exact absurd (fun id => (hends id).trans (hterminal id))
            (not_sole_of_two htwo hascending w.terminal)
  | sole w hgraph _ hterminal =>
      cases h' with
      | empty hnil => exact absurd hnil ((hterminal _).mpr rfl).accepted_ne_nil
      | several ends htwo hascending hends =>
          exact absurd (fun id => (hends id).trans (hterminal id))
            (not_sole_of_two htwo hascending w.terminal)
      | sole w' hgraph' _ _ => rw [Workflow.eq_of_toGraph_eq w w' (hgraph.trans hgraph'.symm)]

section Build

variable (calls : List Call)

theorem draft_after : Draft.empty.after calls = (Builder.after calls.reverse).draft := by
  have h := Draft.after_eq_draft calls.reverse
  rw [List.reverse_reverse] at h
  exact h

theorem recorded : Recorded (Draft.empty.record calls) (Builder.after calls.reverse) := by
  have h := recorded_after calls.reverse
  rw [List.reverse_reverse] at h
  exact h

-- A number is given for every step.
theorem mem_given (id : Nat) :
    id ∈ Draft.empty.given calls ↔ id < (Builder.after calls.reverse).graph.size := by
  rw [Draft.given, (recorded calls).ids_eq, List.mem_range]

-- The steps that lead nowhere are those that nobody asked for.
theorem mem_sinks_iff (id : Nat) :
    id ∈ (Builder.after calls.reverse).graph.sinks ↔ Unlinked calls id := by
  unfold Graph.sinks Unlinked Draft.accepted
  rw [List.mem_filter, List.isEmpty_iff, (recorded calls).successors_eq_nil, Graph.mem_ids,
    mem_given]

theorem sinks_ascending : Ascending (Builder.after calls.reverse).graph.sinks :=
  ((Graph.ids_pairwise_lt _).filter _).imp Nat.compare_eq_lt.mpr

-- A list that is neither empty nor of one member has two.
theorem two_le_length {l : List Nat} (hnil : l ≠ []) (hsole : ∀ a, l ≠ [a]) : 2 ≤ l.length := by
  rcases l with _ | ⟨a, _ | ⟨b, rest⟩⟩
  · exact absurd rfl hnil
  · exact absurd rfl (hsole a)
  · exact Nat.le_add_left 2 rest.length

-- The last step leads nowhere, so there are no ends only if there are no steps.
theorem accepted_eq_nil (h : (Builder.after calls.reverse).graph.sinks = []) :
    Draft.empty.accepted calls = [] := by
  have hids := (recorded calls).ids_eq
  have hmem := Graph.mem_successors (Builder.after calls.reverse).graph
  have hforward := (Builder.after calls.reverse).sound.forward
  unfold Draft.accepted
  cases hsize : (Builder.after calls.reverse).graph.size with
  | zero =>
      rw [hsize] at hids
      rw [List.map_eq_nil_iff.mp hids]
      rfl
  | succ last =>
      have hlast : last ∈ (Builder.after calls.reverse).graph.sinks := by
        unfold Graph.sinks
        rw [List.mem_filter, List.isEmpty_iff, Graph.mem_ids, hsize]
        refine ⟨Nat.lt_succ_self last, List.eq_nil_iff_forall_not_mem.mpr fun v hv => ?_⟩
        rcases hforward _ ((hmem last v).mp hv) with ⟨hlater, hthere⟩
        rw [hsize] at hthere
        exact absurd hlater (Nat.not_lt_of_le (Nat.le_of_lt_succ hthere))
      rw [h] at hlast
      exact absurd hlast List.not_mem_nil

/-- What is handed out after calls. -/
theorem built : Built calls (Builder.after calls.reverse).build := by
  have hmem := mem_sinks_iff calls
  have hascending := sinks_ascending calls
  unfold Builder.build Workflow.ofSound
  split
  case h_1 hnone => exact Built.empty (accepted_eq_nil calls hnone)
  case h_2 terminal hsole =>
    rw [hsole] at hmem
    refine Built.sole _ ?_ ?_ fun id => (hmem id).symm.trans List.mem_singleton
    · rw [draft_after]
      rfl
    · rw [draft_after]
      rfl
  case h_3 hnone hmany => exact Built.several _ (two_le_length hnone hmany) hascending hmem

theorem build_eq_iff (r : Except WorkflowError Workflow) :
    (Builder.after calls.reverse).build = r ↔ Built calls r :=
  ⟨fun h => h ▸ built calls, (built calls).unique⟩

end Build

/-- Whether nothing but the calls that succeed tells in what calls leave behind. -/
structure Traceless (calls : List Call) : Prop where
  /-- Without the refused calls, the same is left behind by calls that all succeed. -/
  after_accepted : Draft.empty.after (Draft.empty.accepted calls) = Draft.empty.after calls
  record_accepted : Draft.empty.record (Draft.empty.accepted calls) = Draft.empty.record calls
  /-- One more call that is refused writes nothing. -/
  refused : ∀ call e, ((Draft.perform call).on (Draft.empty.after calls)).1 = .error e →
    ((Draft.perform call).on (Draft.empty.after calls)).2 = Draft.empty.after calls
  given_eq : Draft.empty.given calls = List.range (Draft.empty.accepted calls).length
  /-- One more call succeeds only if the steps that it asks for are there and free. -/
  free : ∀ call id, ((Draft.perform call).on (Draft.empty.after calls)).1 = .ok id →
    ∀ u ∈ call.feeds, u ∈ Draft.empty.given calls ∧
      ∀ other ∈ Draft.empty.accepted calls, u ∉ other.feeds
  draft_eq : Draft.empty.after calls = (Builder.after calls.reverse).draft
  build_iff : ∀ r, (Builder.after calls.reverse).build = r ↔ Built calls r

/-- Calls that are refused leave no trace. The others give the numbers from zero on, and
    what they ask for is there and free; and what is handed out, or why nothing is, depends
    on the steps that none of them asked for. -/
theorem calls_traceless (calls : List Call) : Traceless calls := by
  have hrecorded := recorded calls
  have hdraft := draft_after calls
  constructor
  case after_accepted => exact Draft.after_accepted Builder.empty calls
  case record_accepted => exact Draft.record_accepted Builder.empty calls
  case refused =>
    rw [hdraft]
    intro call e he
    cases h : (Builder.after calls.reverse).perform call with
    | ok added =>
        rw [Draft.perform_ok h] at he
        cases he
    | error _ => rw [Draft.perform_error h]
  case given_eq =>
    have hids := hrecorded.ids_eq
    have hlength := congrArg List.length hids
    rw [List.length_map, List.length_range] at hlength
    rw [Draft.given, Draft.accepted, hids, List.length_map, hlength]
  case free =>
    rw [hdraft]
    intro call id hid u hu
    cases h : (Builder.after calls.reverse).perform call with
    | error e =>
        rw [Draft.perform_error h] at hid
        cases hid
    | ok added =>
        rcases (Builder.perform_eq_ok _ call added.1 added.2).mp h with
          ⟨feeds, step, hadds, hgrows⟩
        rw [hadds.feeds_eq] at hu
        rcases hgrows.free u hu with ⟨hsize, hfree⟩
        exact ⟨(mem_given calls u).mpr hsize, (hrecorded.successors_eq_nil u).mp hfree⟩
  case draft_eq => exact hdraft
  case build_iff => exact build_eq_iff calls

/-- Calls of which some are refused: joins and a projection of steps that are not there or
    not free. -/
def refusedCalls : List Call :=
  [.scan ⟨⟨"shop"⟩, "users"⟩ ⟨"east"⟩ [], .join 0 1 default, .join 0 0 default,
    .scan ⟨⟨"shop"⟩, "orders"⟩ ⟨"west"⟩ [], .join 0 1 default, .project 0 [],
    .scan ⟨⟨"shop"⟩, "items"⟩ ⟨"west"⟩ [], .join 3 1 default]

/-- Four of the calls succeed, and two of their steps are ends. -/
theorem refusedCalls_traceless :
    Draft.empty.given refusedCalls = [0, 1, 2, 3] ∧
      (Builder.after refusedCalls.reverse).build = .error (.multipleTerminals [2, 3]) ∧
        Unlinked refusedCalls 2 ∧ ¬Unlinked refusedCalls 1 := by
  have h := calls_traceless refusedCalls
  have hbuild : (Builder.after refusedCalls.reverse).build = .error (.multipleTerminals [2, 3]) :=
    rfl
  refine ⟨h.given_eq, hbuild, ?_⟩
  cases (h.build_iff _).mp hbuild with
  | several _ _ _ hends =>
      exact ⟨(hends 2).mp (by decide), fun hone => absurd ((hends 1).mpr hone) (by decide)⟩

end Federation
