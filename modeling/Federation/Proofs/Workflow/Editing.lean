import Federation.Proofs.Workflow.Building

/-!
# Building in Place

A builder that is kept in one place is written to piece by piece: a call puts its step
behind the others and then draws the links, one after another, and a scan is noted besides.
What was written stays, also when something fails later in the same call, so a check that
came too late would leave a step that nobody fed, or fed from one side only.

Calls are such programs here. They examine all that they rely on before they write, which
is why no failure leaves a trace: a call on the draft of a builder comes to what the call
on the builder comes to, and where it is refused the draft is the draft that it was.

## Main definitions

* `Draft`: A graph and the scans noted in it.
* `Draft.Edit`: Programs that write to a draft and may fail, without taking anything back.
* `Draft.perform`: The calls, as such programs.

## Theorems

* `checks_on`: Checks write nothing.
* `links_on`: Links are drawn one by one.
* `perform_on`: The effect of a call on the draft of a builder.
-/

namespace Federation

/-- A graph in one place, and the scans in it as they were noted. -/
structure Draft where
  graph : Graph
  scans : List Nat

namespace Draft

open Builder (Call)

/-- A program that writes to a draft and may fail. What it wrote before it failed stays. -/
abbrev Edit (α : Type) : Type := ExceptT WorkflowError (StateM Draft) α

/-- What a program answers, and the draft that it leaves. -/
def Edit.on {α : Type} (edit : Edit α) (d : Draft) : Except WorkflowError α × Draft :=
  (edit.run.run d).run

/-- The draft without steps. -/
def empty : Draft := ⟨Graph.empty, []⟩

/-- Fails unless the step of a number is there and feeds nothing. -/
def check (id : Nat) : Edit Unit := do
  let d ← get
  if d.graph.size ≤ id then
    throw (.unknownStep id)
  else if (d.graph.successors id).isEmpty then
    pure ()
  else
    throw (.alreadyLinked id)

/-- Puts a step behind the others, and gives its number. -/
def addStep (step : Step) : Edit Nat := do
  let d ← get
  if d.graph.size < Graph.capacity then
    set { d with graph := { d.graph with steps := d.graph.steps ++ [step] } }
    pure d.graph.size
  else
    throw .full

/-- Draws a link. -/
def addLink (source target : Nat) : Edit Unit :=
  modify fun d =>
    { d with graph := { d.graph with links := d.graph.links ++ [⟨source, target⟩] } }

/-- Notes a scan. -/
def noteScan (id : Nat) : Edit Unit := modify fun d => { d with scans := d.scans ++ [id] }

/-- Adds a scan. -/
def scan (table : TableName) (cluster : ClusterName) (columns : List ColumnName) :
    Edit Nat := do
  let id ← addStep (.scan table cluster columns)
  noteScan id
  pure id

/-- Adds a step that is fed by others. -/
def append (feeds : List Nat) (step : Step) : Edit Nat := do
  feeds.forM check
  let id ← addStep step
  feeds.forM fun up => addLink up id
  pure id

/-- Adds a join that any of the given capabilities may execute. -/
def joinWith (left right : Nat) (relation : Relation) (alternatives : List Capability) :
    Edit Nat :=
  if left = right then
    throw (.sameInput left)
  else
    match (Step.join relation alternatives).fault? with
    | some fault => throw fault
    | none => append [left, right] (.join relation alternatives)

/-- A call as a program. -/
def perform : Call → Edit Nat
  | .scan table cluster columns => scan table cluster columns
  | .filter up column relation =>
    match Capability.filter? column relation.operator with
    | none => throw (.invalidFilter column relation.operator)
    | some operation => append [up] (.filter relation operation)
  | .project up columns => append [up] (.projection columns none)
  | .window up columns window => append [up] (.projection columns (some window))
  | .join left right relation => joinWith left right relation Capability.joinVariants
  | .joinWith left right relation alternatives => joinWith left right relation alternatives

/-! ### Running programs -/

section Run

variable {α β : Type} {edit : Edit α} {next : α → Edit β} {d d' : Draft}

theorem on_bind_ok {a : α} (h : edit.on d = (.ok a, d')) :
    (edit >>= next).on d = (next a).on d' := by
  unfold Edit.on at h ⊢
  rw [ExceptT.run_bind, StateT.run_bind, Id.run_bind, h]

-- The draft is left as it is where the first program fails.
theorem on_bind_error {e : WorkflowError} (h : edit.on d = (.error e, d')) :
    (edit >>= next).on d = (.error e, d') := by
  unfold Edit.on at h ⊢
  rw [ExceptT.run_bind, StateT.run_bind, Id.run_bind, h]
  rfl

end Run

theorem get_on (d : Draft) : (get : Edit Draft).on d = (.ok d, d) := rfl

theorem addLink_on (source target : Nat) (d : Draft) :
    (addLink source target).on d
      = (.ok (), ⟨⟨d.graph.steps, d.graph.links ++ [⟨source, target⟩]⟩, d.scans⟩) :=
  rfl

theorem addStep_on (step : Step) (d : Draft) :
    (addStep step).on d = if d.graph.size < Graph.capacity then
      (.ok d.graph.size, ⟨⟨d.graph.steps ++ [step], d.graph.links⟩, d.scans⟩)
    else
      (.error .full, d) := by
  unfold addStep
  rw [on_bind_ok (get_on d)]
  split
  case isTrue room => rfl
  case isFalse full => rfl

end Draft

/-- A builder as a draft. -/
def Builder.draft (b : Builder) : Draft := ⟨b.graph, b.graph.scans⟩

/-- What a call on a builder comes to, seen from the draft of the builder. -/
def Builder.outcome (b : Builder) :
    Except WorkflowError (Nat × Builder) → Except WorkflowError Nat × Draft
  | .ok (id, b') => (.ok id, b'.draft)
  | .error e => (.error e, b.draft)

namespace Draft

open Builder (Call)

/-! ### Checks and writes -/

theorem check_on (b : Builder) (id : Nat) :
    (check id).on b.draft = (match b.feedFault? id with
      | some fault => .error fault
      | none => .ok (), b.draft) := by
  unfold check Builder.feedFault?
  rw [on_bind_ok (get_on b.draft)]
  change Edit.on (if b.graph.size ≤ id then _ else if (b.graph.successors id).isEmpty then _
    else _) _ = _
  split
  case isTrue hsize => rfl
  case isFalse hsize =>
    split
    case isTrue hfree => rfl
    case isFalse hlinked => rfl

/-- Checks write nothing, and fail with the first fault. -/
theorem checks_on (b : Builder) (feeds : List Nat) :
    (feeds.forM check).on b.draft = (match feeds.findSome? b.feedFault? with
      | some fault => .error fault
      | none => .ok (), b.draft) := by
  induction feeds with
  | nil => rfl
  | cons id rest ih =>
      have hid := check_on b id
      change (check id >>= fun _ => rest.forM check).on b.draft = _
      rw [List.findSome?_cons]
      cases hfault : b.feedFault? id with
      | some fault =>
          rw [hfault] at hid
          exact on_bind_error hid
      | none =>
          rw [hfault] at hid
          rw [on_bind_ok hid]
          exact ih

/-- Links are drawn one by one. -/
theorem links_on (feeds : List Nat) (id : Nat) (d : Draft) :
    (feeds.forM fun up => addLink up id).on d = (.ok (),
      ⟨⟨d.graph.steps, d.graph.links ++ feeds.map fun up => ⟨up, id⟩⟩, d.scans⟩) := by
  induction feeds generalizing d with
  | nil =>
      rw [List.map_nil, List.append_nil]
      rfl
  | cons up rest ih =>
      change (addLink up id >>= fun _ => rest.forM fun up => addLink up id).on d = _
      rw [on_bind_ok (addLink_on up id d), ih, List.map_cons, List.append_assoc]
      rfl

/-! ### Calls -/

-- A new step is the last of the scans, if it is one.
theorem scans_append (g : Graph) (feeds : List Nat) (step : Step) :
    (g.append feeds step).scans = g.scans ++ if step.isScan then [g.size] else [] := by
  have hids : (g.append feeds step).ids = g.ids ++ [g.size] := by
    rw [Graph.ids, Graph.size_append, List.range_succ]
    rfl
  have hold : ∀ id ∈ g.ids, ((g.append feeds step).step? id).any Step.isScan
      = (g.step? id).any Step.isScan := fun id hid => by
    rw [Graph.step?_append, if_neg (Nat.ne_of_lt ((Graph.mem_ids g id).mp hid))]
  unfold Graph.scans
  rw [hids, List.filter_append, List.filter_congr hold, List.filter_singleton,
    Graph.step?_append, if_pos rfl, Option.any_some, cond_eq_ite]

/-- A step that reads no table is added as a builder adds it. -/
theorem append_on (b : Builder) (feeds : List Nat) (step : Step)
    (admitted : step.fault? = none) (enough : feeds.length = step.arity)
    (different : feeds.Nodup) (hinner : step.isScan = false) :
    (append feeds step).on b.draft
      = b.outcome (b.append feeds step admitted enough different) := by
  have hchecks := checks_on b feeds
  have hscans : (b.graph.append feeds step).scans = b.graph.scans := by
    rw [scans_append, hinner]
    exact List.append_nil _
  unfold Builder.append
  split
  case h_1 fault hfault =>
    rw [hfault] at hchecks
    exact on_bind_error hchecks
  case h_2 hnone =>
    rw [hnone] at hchecks
    rw [append, on_bind_ok hchecks]
    split
    case isTrue room =>
      rw [on_bind_ok ((addStep_on step b.draft).trans (if_pos room)), on_bind_ok (links_on ..)]
      change _ = (Except.ok b.graph.size, Draft.mk _ (b.graph.append feeds step).scans)
      rw [hscans]
      rfl
    case isFalse full => exact on_bind_error ((addStep_on step b.draft).trans (if_neg full))

/-- A scan needs no checks, and is noted. -/
theorem scan_on (b : Builder) (table : TableName) (cluster : ClusterName)
    (columns : List ColumnName) :
    (scan table cluster columns).on b.draft = b.outcome (b.scan table cluster columns) := by
  have hscans : (b.graph.append [] (.scan table cluster columns)).scans
      = b.graph.scans ++ [b.graph.size] :=
    scans_append ..
  unfold Builder.scan Builder.append
  split
  case h_1 fault hfault => cases hfault
  case h_2 hnone =>
    rw [scan]
    split
    case isTrue room =>
      rw [on_bind_ok ((addStep_on _ b.draft).trans (if_pos room))]
      change _ = (Except.ok b.graph.size,
        Draft.mk (b.graph.append [] (.scan table cluster columns)) _)
      rw [hscans, Graph.append, List.map_nil, List.append_nil]
      rfl
    case isFalse full => exact on_bind_error ((addStep_on _ b.draft).trans (if_neg full))

theorem joinWith_on (b : Builder) (left right : Nat) (relation : Relation)
    (alternatives : List Capability) :
    (joinWith left right relation alternatives).on b.draft
      = b.outcome (b.joinWith left right relation alternatives) := by
  unfold Builder.joinWith
  split
  case isTrue same =>
    rw [joinWith, if_pos same]
    rfl
  case isFalse different =>
    split
    case h_1 fault hfault =>
      have hthrow : joinWith left right relation alternatives = throw fault := by
        rw [joinWith, if_neg different, hfault]
      rw [hthrow]
      rfl
    case h_2 admitted =>
      have happend : joinWith left right relation alternatives
          = append [left, right] (.join relation alternatives) := by
        rw [joinWith, if_neg different, admitted]
      rw [happend]
      exact append_on b [left, right] _ admitted rfl (List.pairwise_pair.mpr different) rfl

theorem filter_on (b : Builder) (up : Nat) (column : ColumnClass) (relation : Relation) :
    (perform (.filter up column relation)).on b.draft
      = b.outcome (b.filter up column relation) := by
  unfold Builder.filter
  split
  case h_1 hnone =>
    rw [perform, hnone]
    rfl
  case h_2 operation hsome =>
    have happend : perform (.filter up column relation)
        = append [up] (.filter relation operation) := by
      rw [perform, hsome]
    rw [happend]
    exact append_on b [up] _ _ rfl (List.nodup_singleton up) rfl

/-- The effect of a call on the draft of a builder: what is refused leaves no trace. -/
theorem perform_on (b : Builder) (call : Call) :
    (perform call).on b.draft = b.outcome (b.perform call) := by
  cases call with
  | scan table cluster columns => exact scan_on b table cluster columns
  | filter up column relation => exact filter_on b up column relation
  | project up columns => exact append_on b [up] _ rfl rfl (List.nodup_singleton up) rfl
  | window up columns window => exact append_on b [up] _ rfl rfl (List.nodup_singleton up) rfl
  | join left right relation => exact joinWith_on b left right relation Capability.joinVariants
  | joinWith left right relation alternatives =>
      exact joinWith_on b left right relation alternatives

end Draft

end Federation
