import Federation.Ascending
import Federation.Workflow.Error

/-!
# Step Graphs

Steps with links from each to the step that works on its result. Steps are
numbered in order of addition and a link always leads to a later step, so the
numbers are a topological order and there are no cycles. The links are kept in
the order in which they were made, because a written graph lists them so.

A graph is *sound* when its links lead forward, no step feeds two others, every
step is fed by as many steps as it needs, and every step is one that a workflow
admits. Soundness is local; what it amounts to for whole workflows is a matter of
theorems.

## Main definitions

* `Graph`: Steps and links, with `next?`, `inputs`, `scans`, `joins`, `sinks`.
* `Graph.Sound`: The local conditions.
* `Graph.fault?`: The first condition that a graph breaks, links before steps.
* `Graph.append`: One step more, fed by given steps.

## Theorems

* `Graph.sound_iff_fault?`: A graph is sound exactly if no fault is found in it.
* `Graph.Sound.append`: Adding a step keeps soundness.
-/

namespace Federation

/-- Why a step is admitted by no workflow, if so: a filter needs a filter
    capability, a join at least one capability and only join capabilities. -/
def Step.fault? : Step → Option WorkflowError
  | .filter _ operation =>
    if operation.isFilter then none else some (.notAFilterCapability operation)
  | .join _ [] => some .noJoinAlternatives
  | .join _ alternatives =>
    (alternatives.find? fun c => !c.isJoin).map .notAJoinCapability
  | _ => none

/-- A link from a step to the one that works on its result. -/
structure Link where
  source : Nat
  target : Nat
deriving DecidableEq

/-- Steps and the links between them. -/
structure Graph where
  steps : List Step
  links : List Link

namespace Graph

/-- The most steps a graph may have: numbers of 32 bits, the last one reserved. -/
def capacity : Nat := UInt32.size - 1

/-- The graph without steps. -/
def empty : Graph := ⟨[], []⟩

/-- How many steps there are, which is also the number of the next one. -/
def size (g : Graph) : Nat := g.steps.length

/-- The numbers of the steps, each after those that feed it. -/
def ids (g : Graph) : List Nat := List.range g.size

/-- The step of a number. -/
def step? (g : Graph) (id : Nat) : Option Step := g.steps[id]?

/-- The steps that a step feeds, in the order of the links. -/
def successors (g : Graph) (id : Nat) : List Nat :=
  (g.links.filter fun l => l.source == id).map Link.target

/-- The steps that feed a step, in the order of the links. -/
def predecessors (g : Graph) (id : Nat) : List Nat :=
  (g.links.filter fun l => l.target == id).map Link.source

/-- The step that works on the result of a step. -/
def next? (g : Graph) (id : Nat) : Option Nat := (g.successors id).head?

/-- The steps that feed a step, in ascending order. -/
def inputs (g : Graph) (id : Nat) : List Nat := ascending (g.predecessors id)

/-- Whether a number is that of a join. -/
def isJoinAt (g : Graph) (id : Nat) : Bool := (g.step? id).any Step.isJoin

/-- The scans, in ascending order. -/
def scans (g : Graph) : List Nat := g.ids.filter fun id => (g.step? id).any Step.isScan

/-- The joins, in ascending order. -/
def joins (g : Graph) : List Nat := g.ids.filter g.isJoinAt

/-- The steps that feed no other, in ascending order. -/
def sinks (g : Graph) : List Nat := g.ids.filter fun id => (g.successors id).isEmpty

/-- The local conditions on the graph of a workflow. -/
structure Sound (g : Graph) : Prop where
  size_le : g.size ≤ capacity
  forward : ∀ l ∈ g.links, l.source < l.target ∧ l.target < g.size
  successors_le : ∀ id, (g.successors id).length ≤ 1
  predecessors_eq : ∀ id step, g.step? id = some step → (g.predecessors id).length = step.arity
  admitted : ∀ step ∈ g.steps, step.fault? = none

/-- What is wrong with a link. -/
def linkFault? (g : Graph) (l : Link) : Option WorkflowError :=
  if g.size ≤ l.target then some (.unknownStep l.target)
  else if l.target ≤ l.source then some (.backwardLink l.source l.target)
  else none

/-- What is wrong with the step of a number. -/
def stepFault? (g : Graph) (id : Nat) : Option WorkflowError :=
  match g.step? id with
  | none => none
  | some step =>
    if 1 < (g.successors id).length then some (.alreadyLinked id)
    else if (g.predecessors id).length ≠ step.arity then
      some (.inputCount id step.arity (g.predecessors id).length)
    else step.fault?

/-- The first condition that the graph breaks: its size, then the links in their
    order, then the steps in theirs. -/
def fault? (g : Graph) : Option WorkflowError :=
  if capacity < g.size then some .full
  else (g.links.findSome? g.linkFault?).or (g.ids.findSome? g.stepFault?)

theorem step?_eq_some_lt {g : Graph} {id : Nat} {step : Step} (h : g.step? id = some step) :
    id < g.size :=
  (List.getElem?_eq_some_iff.1 h).1

/-- A link without a fault leads forward, to a step that is there. -/
theorem linkFault?_eq_none {g : Graph} {l : Link} :
    g.linkFault? l = none ↔ l.source < l.target ∧ l.target < g.size := by
  unfold linkFault?
  split
  · simp; omega
  · split <;> simp <;> omega

/-- Beyond the last step there is nothing to feed. -/
theorem successors_eq_nil {g : Graph} (hf : ∀ l ∈ g.links, l.source < l.target ∧ l.target < g.size)
    {id : Nat} (h : g.size ≤ id) : g.successors id = [] := by
  simp only [successors, List.map_eq_nil_iff, List.filter_eq_nil_iff, beq_iff_eq]
  intro l hl hid
  have := hf l hl
  omega

/-- A graph is sound exactly if no fault is found in it. -/
theorem sound_iff_fault? (g : Graph) : g.Sound ↔ g.fault? = none := by
  -- What it means that one step has no fault.
  have hstep : ∀ id step, g.step? id = some step →
      (g.stepFault? id = none ↔ (g.successors id).length ≤ 1 ∧
        (g.predecessors id).length = step.arity ∧ step.fault? = none) := by
    intro id step h
    simp only [stepFault?, h]
    split
    · simp; omega
    · split
      · simp_all
      · simp_all
  constructor
  · intro h
    have hlinks : g.links.findSome? g.linkFault? = none :=
      List.findSome?_eq_none_iff.2 fun l hl => linkFault?_eq_none.2 (h.forward l hl)
    have hsteps : g.ids.findSome? g.stepFault? = none := by
      refine List.findSome?_eq_none_iff.2 fun id _ => ?_
      cases hid : g.step? id with
      | none => simp [stepFault?, hid]
      | some step =>
        exact (hstep id step hid).2 ⟨h.successors_le id, h.predecessors_eq id step hid,
          h.admitted step (List.mem_of_getElem? hid)⟩
    simp [fault?, hlinks, hsteps, h.size_le]
  · intro h
    have hsize : g.size ≤ capacity := by
      by_cases hs : capacity < g.size
      · simp [fault?, hs] at h
      · omega
    obtain ⟨hlinks, hsteps⟩ : g.links.findSome? g.linkFault? = none ∧
        g.ids.findSome? g.stepFault? = none := by
      simpa [fault?, Nat.not_lt.2 hsize] using h
    have hf : ∀ l ∈ g.links, l.source < l.target ∧ l.target < g.size := fun l hl =>
      linkFault?_eq_none.1 (List.findSome?_eq_none_iff.1 hlinks l hl)
    have hall : ∀ id step, g.step? id = some step → _ := fun id step hid =>
      (hstep id step hid).1 (List.findSome?_eq_none_iff.1 hsteps id
        (List.mem_range.2 (step?_eq_some_lt hid)))
    refine ⟨hsize, hf, fun id => ?_, fun id step hid => (hall id step hid).2.1, fun step hs => ?_⟩
    · -- A number beyond the last step has no successors, for want of links.
      by_cases hid : id < g.size
      · exact (hall id _ (List.getElem?_eq_getElem hid)).1
      · simp [successors_eq_nil hf (Nat.not_lt.1 hid)]
    · obtain ⟨id, hid⟩ := List.mem_iff_getElem?.1 hs
      exact (hall id step hid).2.2

/-- The graph with one step more, fed by the given steps. -/
def append (g : Graph) (feeds : List Nat) (step : Step) : Graph :=
  ⟨g.steps ++ [step], g.links ++ feeds.map fun id => ⟨id, g.size⟩⟩

@[simp] theorem size_append (g : Graph) (feeds : List Nat) (step : Step) :
    (g.append feeds step).size = g.size + 1 := by
  simp [append, size]

/-- Each of the given steps feeds the new one besides. -/
theorem successors_append (g : Graph) (feeds : List Nat) (step : Step) (id : Nat) :
    (g.append feeds step).successors id
      = g.successors id ++ List.replicate (feeds.count id) g.size := by
  simp only [successors, append, List.filter_append, List.map_append, List.append_cancel_left_eq]
  induction feeds with
  | nil => rfl
  | cons f rest ih =>
    by_cases h : f = id
    · simp [h, ih, List.replicate_succ]
    · simp [h, ih]

/-- The new step is fed by the given ones, all others as before. -/
theorem predecessors_append (g : Graph) (feeds : List Nat) (step : Step) (id : Nat) :
    (g.append feeds step).predecessors id
      = g.predecessors id ++ if id = g.size then feeds else [] := by
  simp only [predecessors, append, List.filter_append, List.map_append,
    List.append_cancel_left_eq]
  split
  · rename_i h
    simp [h, List.filter_map, Function.comp_def]
  · rename_i h
    have h' : g.size ≠ id := fun hid => h hid.symm
    simp [List.filter_map, Function.comp_def, h']

/-- The new step has the next number, all others keep theirs. -/
theorem step?_append (g : Graph) (feeds : List Nat) (step : Step) (id : Nat) :
    (g.append feeds step).step? id = if id = g.size then some step else g.step? id := by
  by_cases h : id = g.size
  · simp [step?, append, size, h]
  · by_cases hid : id < g.steps.length
    · simp [step?, append, h, List.getElem?_append_left hid]
    · have hlast : id ≠ g.steps.length := h
      simp only [step?, append, if_neg h]
      rw [List.getElem?_eq_none (by simp; omega), List.getElem?_eq_none (by omega)]

/-- A graph without steps breaks no condition. -/
theorem Sound.empty : Graph.empty.Sound :=
  ⟨by decide, by simp [Graph.empty], by simp [Graph.empty, successors],
    by simp [Graph.empty, step?], by simp [Graph.empty]⟩

/-- Adding an admitted step keeps a graph sound, if it is fed by as many steps as
    it needs, all of them present, different and not linked yet. -/
theorem Sound.append {g : Graph} (h : g.Sound) {feeds : List Nat} {step : Step}
    (room : g.size < capacity) (admitted : step.fault? = none)
    (enough : feeds.length = step.arity) (different : feeds.Nodup)
    (free : ∀ id ∈ feeds, id < g.size ∧ g.successors id = []) :
    (g.append feeds step).Sound := by
  refine ⟨by rw [size_append]; omega, fun l hl => ?_, fun id => ?_, fun id s hs => ?_,
    fun s hs => ?_⟩
  · -- New links lead from steps that are there to the new one.
    rcases List.mem_append.1 hl with hl | hl
    · have := h.forward l hl
      simp; omega
    · obtain ⟨id, hid, rfl⟩ := List.mem_map.1 hl
      simpa using (free id hid).1
  · -- A step that feeds the new one fed nothing before and does so once.
    rw [successors_append, List.length_append, List.length_replicate]
    by_cases hid : id ∈ feeds
    · have := List.nodup_iff_count.1 different id
      simp [(free id hid).2]; omega
    · have := h.successors_le id
      simp [List.count_eq_zero_of_not_mem hid]; omega
  · rw [step?_append] at hs
    rw [predecessors_append]
    split at hs
    · -- No link led to the new number before.
      rename_i hid
      have hnone : g.predecessors g.size = [] := by
        simp only [predecessors, List.map_eq_nil_iff, List.filter_eq_nil_iff, beq_iff_eq]
        intro l hl heq
        have := h.forward l hl
        omega
      cases hs
      simp [hid, hnone, enough]
    · rename_i hid
      simpa [hid] using h.predecessors_eq id s hs
  · rcases List.mem_append.1 hs with hs | hs
    · exact h.admitted s hs
    · rw [List.mem_singleton.1 hs]; exact admitted

end Graph

end Federation
