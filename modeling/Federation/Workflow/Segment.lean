import Federation.Workflow

/-!
# Segments

Between two joins a workflow is a chain. The segment from a step is that step and
those that follow it, up to the next join, together with the join; both the
branch of a scan and the steps that a join drags along are segments. What a plan
dispatches is cut along segments, so every step belongs to exactly one of them.

## Main definitions

* `Segment`: A stretch of steps and the join that ends it.
* `Workflow.segment`: The segment that starts at a step.

## Theorems

* `Workflow.segment_some`: The segment of a step that is no join goes on with
  the segment of the step it feeds.
-/

namespace Federation

/-- A stretch of steps without joins and the join it feeds, if any. -/
structure Segment where
  steps : List Nat
  join? : Option Nat
deriving DecidableEq

namespace Workflow

/-- The segment from a step, at most so many steps of it. -/
def segmentWithin (w : Workflow) : Nat → Option Nat → Segment
  | 0, start => ⟨[], start⟩
  | _ + 1, none => ⟨[], none⟩
  | most + 1, some id =>
    if w.isJoinAt id then
      ⟨[], some id⟩
    else
      let rest := w.segmentWithin most (w.next? id)
      ⟨id :: rest.steps, rest.join?⟩

/-- The segment from a step. A workflow has no more steps than its size. -/
def segment (w : Workflow) (start : Option Nat) : Segment := w.segmentWithin w.size start

@[simp] theorem segmentWithin_none (w : Workflow) (most : Nat) :
    w.segmentWithin most none = ⟨[], none⟩ := by
  cases most <;> rfl

/-- Every step has a greater number than those before it, so the size less the
    number of the first step bounds a segment. -/
theorem segmentWithin_eq (w : Workflow) {most more : Nat} {start : Option Nat}
    (hmost : ∀ id, start = some id → id < w.size ∧ w.size ≤ id + most)
    (hmore : ∀ id, start = some id → w.size ≤ id + more) :
    w.segmentWithin most start = w.segmentWithin more start := by
  induction most generalizing more start with
  | zero =>
    cases start with
    | none => simp
    | some id => have := hmost id rfl; omega
  | succ most ih =>
    cases start with
    | none => simp
    | some id =>
      obtain ⟨hlt, hle⟩ := hmost id rfl
      cases more with
      | zero => have := hmore id rfl; omega
      | succ more =>
        have hmore := hmore id rfl
        have hnext : w.segmentWithin most (w.next? id) = w.segmentWithin more (w.next? id) :=
          ih (fun n hn => by have := next?_lt hn; omega) (fun n hn => by have := next?_lt hn; omega)
        simp only [segmentWithin, hnext]

@[simp] theorem segment_none (w : Workflow) : w.segment none = ⟨[], none⟩ :=
  segmentWithin_none w _

/-- The segment from a join has no steps, for it ends where it starts. -/
theorem segment_of_isJoinAt {w : Workflow} {id : Nat} (hid : id < w.size)
    (h : w.isJoinAt id = true) : w.segment (some id) = ⟨[], some id⟩ := by
  unfold segment
  obtain ⟨n, hn⟩ : ∃ n, w.size = n + 1 := ⟨w.size - 1, by omega⟩
  rw [hn]
  simp [segmentWithin, h]

/-- The segment of a step that is no join goes on with the segment of the step it
    feeds. -/
theorem segment_some {w : Workflow} {id : Nat} (hid : id < w.size)
    (h : w.isJoinAt id = false) :
    w.segment (some id)
      = ⟨id :: (w.segment (w.next? id)).steps, (w.segment (w.next? id)).join?⟩ := by
  obtain ⟨n, hn⟩ : ∃ n, w.size = n + 1 := ⟨w.size - 1, by omega⟩
  have hnext : w.segmentWithin n (w.next? id) = w.segmentWithin (n + 1) (w.next? id) :=
    w.segmentWithin_eq (fun m hm => by have := next?_lt hm; omega)
      (fun m hm => by have := next?_lt hm; omega)
  unfold segment
  rw [hn, ← hnext]
  simp [segmentWithin, h]

end Workflow

end Federation
