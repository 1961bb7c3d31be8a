import Federation.Proofs.Wire.Reading
import Federation.Proofs.Workflow.Building
import Federation.Wire.Workflow

/-!
# Reading Workflows Back

A workflow that was written is read back as it was, down to the order of its links, and
the examination that reading ends with cannot fail for it: what holds a workflow
together was examined before, and its ends are declared as they are. The one thing that
gets lost on the way is a floating-point literal that is not finite, which is written
as null. A workflow with such a literal is written, but not read back.

A selector holds others, so it is read by recursion, and what is said of it is said of
lists of selectors at the same time.

## Main definitions

* `FloatsFinite`: All floating-point literals are finite.

## Theorems

* `Selector.readsBack`, `Step.readsBack`, `Graph.readsBack`: What becomes of the parts.
* `Workflow.readsBack`: A workflow is read back exactly if its literals are finite.
* `Workflow.written_survives`: What is read back, part by part.
-/

namespace Federation

theorem Binary64.readsBack :
    ReadsBack Binary64.toJson Binary64.ofJson fun x => x.isFinite = true := by
  intro x y
  unfold toJson
  by_cases hx : x.isFinite = true
  · rw [if_pos hx, ofJson, Except.ok.injEq]
    exact ⟨fun h => ⟨hx, h.symm⟩, fun h => h.2.symm⟩
  · rw [if_neg hx]
    exact ⟨fun h => (by cases h), fun h => absurd h.1 hx⟩

namespace Selector

mutual

/-- Whether all floating-point literals of a selector are finite. -/
def FloatsFinite : Selector → Prop
  | .float value => value.isFinite = true
  | .function _ args => AllFloatsFinite args
  | _ => True

/-- Whether all floating-point literals of several selectors are finite. -/
def AllFloatsFinite : List Selector → Prop
  | [] => True
  | s :: rest => FloatsFinite s ∧ AllFloatsFinite rest

end

theorem integer_readsBack :
    ReadsBack (fun value : Int64 => .int value.toInt) integerOfJson fun _ => True := by
  refine readsBack_of_eq fun value => ?_
  rw [integerOfJson, if_pos ⟨Int64.minValue_le_toInt value, Int64.toInt_le value⟩,
    Int64.ofInt_toInt]

mutual

/-- A selector is read back exactly if its literals are finite. -/
theorem ofJson_toJson (s t : Selector) :
    ofJson (toJson s) = .ok t ↔ s.FloatsFinite ∧ t = s := by
  cases s with
  | column c => exact ColumnName.readsBack.map c column t
  | integer value => exact integer_readsBack.map value integer t
  | float value => exact Binary64.readsBack.map value float t
  | boolean value => exact readsBack_bool.map value boolean t
  | string value => exact readsBack_string.map value string t
  | function name args =>
      change (itemsOfJson (listToJson args) >>= fun args => .ok (function name args)) = .ok t ↔ _
      rw [bind_eq_ok]
      constructor
      · rintro ⟨more, hmore, ht⟩
        rcases (itemsOfJson_listToJson args more).mp hmore with ⟨hfinite, rfl⟩
        exact ⟨hfinite, (Except.ok.inj ht).symm⟩
      · rintro ⟨hfinite, rfl⟩
        exact ⟨args, (itemsOfJson_listToJson args args).mpr ⟨hfinite, rfl⟩, rfl⟩

/-- Selectors are read back exactly if the literals of all of them are finite. -/
theorem itemsOfJson_listToJson (l m : List Selector) :
    itemsOfJson (listToJson l) = .ok m ↔ AllFloatsFinite l ∧ m = l := by
  cases l with
  | nil => exact (pure_eq_ok [] m).trans (iff_of_eq (true_and _)).symm
  | cons s rest =>
      rw [listToJson, itemsOfJson, bind_eq_ok]
      constructor
      · rintro ⟨t, ht, h⟩
        rcases (bind_eq_ok _ _ _).mp h with ⟨more, hmore, hm⟩
        rcases (ofJson_toJson s t).mp ht with ⟨hs, rfl⟩
        rcases (itemsOfJson_listToJson rest more).mp hmore with ⟨hrest, rfl⟩
        exact ⟨⟨hs, hrest⟩, (pure_eq_ok _ m).mp hm⟩
      · rintro ⟨⟨hs, hrest⟩, rfl⟩
        refine ⟨s, (ofJson_toJson s s).mpr ⟨hs, rfl⟩, ?_⟩
        rw [(itemsOfJson_listToJson rest rest).mpr ⟨hrest, rfl⟩]
        rfl

end

theorem readsBack : ReadsBack toJson ofJson FloatsFinite := ofJson_toJson

end Selector

namespace Relation

/-- Whether all floating-point literals of a relation are finite. -/
def FloatsFinite (r : Relation) : Prop := r.left.FloatsFinite ∧ r.right.FloatsFinite

theorem readsBack : ReadsBack toJson ofJson FloatsFinite := by
  intro r t
  have hrecord : Decoder.record ["left", "operator", "right"] r.toJson
      = .ok [some r.left.toJson, some r.operator.toJson, some r.right.toJson] := rfl
  rw [ofJson, hrecord, ok_bind]
  simp only [Selector.readsBack.required_bind, Operator.readsBack.required_bind, pure_eq_ok,
    true_and]
  exact and_assoc.symm

end Relation

theorem OutputColumn.readsBack : ReadsBack toJson ofJson fun _ => True := by
  intro c d
  have hrecord : Decoder.record ["source", "alias", "column_type"] c.toJson
      = .ok [some c.column.toJson, some (.string c.label), some c.type.toJson] := rfl
  rw [ofJson, hrecord, ok_bind]
  simp only [ColumnName.readsBack.required_bind, readsBack_string.required_bind,
    ColumnType.readsBack.required_bind, pure_eq_ok, true_and]

-- A count fits its width.
theorem Window.readsBack : ReadsBack toJson ofJson fun _ => True := by
  refine readsBack_of_eq fun w => ?_
  cases w with
  | rows count =>
      have hcase : Decoder.variant (toJson (.rows count))
          = .ok ("Rows", some (.nat count.toNat)) := rfl
      rw [ofJson, hcase, ok_bind]
      refine ((readsBack_nat UInt32.size).bind _ _ _).mpr ⟨count.toNat_lt_size, ?_⟩
      rw [UInt32.ofNat_toNat]
      rfl
  | seconds count =>
      have hcase : Decoder.variant (toJson (.seconds count))
          = .ok ("Seconds", some (.nat count.toNat)) := rfl
      rw [ofJson, hcase, ok_bind]
      refine ((readsBack_nat UInt64.size).bind _ _ _).mpr ⟨count.toNat_lt_size, ?_⟩
      rw [UInt64.ofNat_toNat]
      rfl

theorem Window.toJson_ne_null (w : Window) : w.toJson ≠ .null := by
  cases w with
  | rows _ => exact fun h => by cases h
  | seconds _ => exact fun h => by cases h

namespace Step

/-- Whether all floating-point literals of a step are finite. -/
def FloatsFinite : Step → Prop
  | .filter relation _ => relation.FloatsFinite
  | .join relation _ => relation.FloatsFinite
  | _ => True

theorem ofJson_scan (content : Json) : ofJson (.case "Scan" content) = scanOfJson content := rfl

theorem ofJson_filter (content : Json) :
    ofJson (.case "Filter" content) = filterOfJson content := rfl

theorem ofJson_projection (content : Json) :
    ofJson (.case "Projection" content) = projectionOfJson content := rfl

theorem ofJson_join (content : Json) : ofJson (.case "Join" content) = joinOfJson content := rfl

/-- A step is read back exactly if its literals are finite. -/
theorem readsBack : ReadsBack toJson ofJson FloatsFinite := by
  intro step t
  cases step with
  | scan table cluster columns =>
      have hfields : Decoder.fields ["table", "cluster", "columns"]
          (.object [("table", table.toJson), ("cluster", cluster.toJson),
            ("columns", .list ColumnName.toJson columns)])
          = .ok [some table.toJson, some cluster.toJson,
            some (.list ColumnName.toJson columns)] := rfl
      rw [toJson, ofJson_scan, scanOfJson, hfields, ok_bind]
      simp only [TableName.readsBack.required_bind, Name.readsBack.required_bind,
        ColumnName.readsBack.list.required_bind, pure_eq_ok, implies_true, true_and,
        FloatsFinite]
  | filter relation operation =>
      have hfields : Decoder.fields ["relation", "operation"]
          (.object [("relation", relation.toJson), ("operation", operation.toJson)])
          = .ok [some relation.toJson, some operation.toJson] := rfl
      rw [toJson, ofJson_filter, filterOfJson, hfields, ok_bind]
      simp only [Relation.readsBack.required_bind, Capability.readsBack.required_bind,
        pure_eq_ok, true_and, FloatsFinite]
  | projection columns window =>
      have hfields : Decoder.fields ["columns", "window"]
          (.object [("columns", .list OutputColumn.toJson columns),
            ("window", .option Window.toJson window)])
          = .ok [some (.list OutputColumn.toJson columns),
            some (.option Window.toJson window)] := rfl
      rw [toJson, ofJson_projection, projectionOfJson, hfields, ok_bind]
      simp only [OutputColumn.readsBack.list.required_bind,
        Window.readsBack.optional_bind Window.toJson_ne_null, pure_eq_ok, implies_true, true_and,
        FloatsFinite]
  | join relation alternatives =>
      have hfields : Decoder.fields ["relation", "alternatives"]
          (.object [("relation", relation.toJson),
            ("alternatives", .list Capability.toJson alternatives)])
          = .ok [some relation.toJson, some (.list Capability.toJson alternatives)] := rfl
      rw [toJson, ofJson_join, joinOfJson, hfields, ok_bind]
      simp only [Relation.readsBack.required_bind, Capability.readsBack.list.required_bind,
        pure_eq_ok, implies_true, true_and,
        FloatsFinite]

end Step

/-- A link is read back if its ends are numbers that steps can have. -/
theorem Link.readsBack : ReadsBack toJson ofJson fun l =>
    l.source < UInt32.size ∧ l.target < UInt32.size := by
  intro l m
  have hnull : Decoder.null .null = .ok () := rfl
  rw [toJson, ofJson]
  simp only [Decoder.stepNumber, (readsBack_nat UInt32.size).bind, hnull, ok_bind, pure_eq_ok]
  exact and_assoc.symm

namespace Graph

/-- Whether all floating-point literals in a graph are finite. -/
def FloatsFinite (g : Graph) : Prop := ∀ step ∈ g.steps, step.FloatsFinite

/-- Whether the steps of a graph can be numbered, and its links lie between them. -/
def Numbered (g : Graph) : Prop :=
  g.size ≤ capacity ∧ ∀ l ∈ g.links, l.source < g.size ∧ l.target < g.size

theorem Sound.numbered {g : Graph} (h : g.Sound) : g.Numbered :=
  ⟨h.size_le, fun l hl => ⟨Nat.lt_trans (h.forward l hl).1 (h.forward l hl).2,
    (h.forward l hl).2⟩⟩

-- The number of a step is below what is reserved for numbers.
theorem Numbered.lt {g : Graph} (h : g.Numbered) (id : Nat) (hid : id < g.size) :
    id < UInt32.size :=
  Nat.lt_of_lt_of_le hid (Nat.le_trans h.1 (Nat.sub_le _ _))

/-- A graph is read back exactly if it is one that can be numbered and its literals are
    finite. -/
theorem readsBack : ReadsBack toJson ofJson fun g => g.FloatsFinite ∧ g.Numbered := by
  intro g f
  have hrecord : Decoder.record ["nodes", "node_holes", "edge_property", "edges"] g.toJson
      = .ok [some (.list Step.toJson g.steps), some (.array []), some (.string "directed"),
        some (.list Link.toJson g.links)] := rfl
  have hholes : Decoder.ifPresent noHoles (some (.array [])) = .ok (some ()) := rfl
  have hdirected : Decoder.required directedOfJson (some (.string "directed")) = .ok () := rfl
  have hinside : (g.steps.length ≤ capacity ∧ (g.links.all fun l =>
      decide (l.source < g.steps.length ∧ l.target < g.steps.length)) = true) ↔ g.Numbered := by
    rw [List.all_eq_true]
    simp only [decide_eq_true_eq]
    exact Iff.rfl
  rw [ofJson, hrecord, ok_bind]
  simp only [Step.readsBack.list.required_bind, hholes, hdirected, ok_bind,
    Link.readsBack.list.required_bind]
  by_cases hnumbered : g.Numbered
  · rw [if_pos (hinside.mpr hnumbered), pure_eq_ok]
    constructor
    · rintro ⟨hfinite, _, rfl⟩
      exact ⟨⟨hfinite, hnumbered⟩, rfl⟩
    · rintro ⟨⟨hfinite, _⟩, rfl⟩
      refine ⟨hfinite, fun l hl => ?_, rfl⟩
      have hlt := hnumbered.2 l hl
      exact ⟨hnumbered.lt _ hlt.1, hnumbered.lt _ hlt.2⟩
  · rw [if_neg fun h => hnumbered (hinside.mp h)]
    exact ⟨fun h => (by cases h.2.2), fun h => absurd h.1.2 hnumbered⟩

end Graph

namespace Workflow

-- The examination of what was read fails only as it fails.
theorem mapError_eq_ok (x : Except WorkflowError Workflow) (w : Workflow) :
    x.mapError DecodeError.invalid = .ok w ↔ x = .ok w := by
  cases x with
  | error _ => exact ⟨fun h => (by cases h), fun h => (by cases h)⟩
  | ok v => exact ⟨fun h => (by cases h; rfl), fun h => (by cases h; rfl)⟩

/-- A workflow is read back exactly if its literals are finite. -/
theorem readsBack : ReadsBack toJson ofJson fun w => w.toGraph.FloatsFinite := by
  intro w v
  have hrecord : Decoder.record ["graph", "initial_steps", "terminal"] w.toJson
      = .ok [some w.toGraph.toJson, some (.list .nat w.initialSteps), some (.nat w.terminal)] :=
    rfl
  have hnumbered := w.sound.numbered
  have hinitial : ∀ id ∈ w.initialSteps, id < UInt32.size := fun id hid =>
    hnumbered.lt id (Graph.lt_of_mem_scans w.toGraph id hid)
  have hterminal : w.terminal < UInt32.size := hnumbered.lt _ (terminal_spec w).1
  rw [ofJson, hrecord, ok_bind]
  simp only [Graph.readsBack.required_bind, Decoder.stepNumber,
    (readsBack_nat UInt32.size).list.required_bind, (readsBack_nat UInt32.size).required_bind,
    mapError_eq_ok, ofGraph_eq_ok]
  constructor
  · rintro ⟨⟨hfinite, _⟩, _, _, hv, _⟩
    exact ⟨hfinite, eq_of_toGraph_eq v w hv⟩
  · rintro ⟨hfinite, rfl⟩
    exact ⟨⟨hfinite, hnumbered⟩, hinitial, hterminal, rfl, rfl, rfl⟩

/-- A workflow survives being written. Wherever it comes from, the examination of its
    graph, its scans and its terminal accepts it; and if its literals are finite,
    reading gives the same steps in the same order, the same links in the same order,
    the same scans and the same terminal. Otherwise reading gives nothing. -/
theorem written_survives (w : Workflow) :
    ofGraph w.toGraph w.initialSteps w.terminal = .ok w ∧
      ∀ v, ofJson w.toJson = .ok v ↔ w.toGraph.FloatsFinite ∧
        v.steps = w.steps ∧ v.links = w.links ∧ v.initialSteps = w.initialSteps ∧
          v.terminal = w.terminal := by
  constructor
  · exact (ofGraph_eq_ok _ _ _ w).mpr ⟨rfl, rfl, rfl⟩
  · intro v
    rw [readsBack]
    refine and_congr_right fun _ => ⟨fun h => ?_, fun ⟨hsteps, hlinks, _, _⟩ => ?_⟩
    · rw [h]
      exact ⟨rfl, rfl, rfl, rfl⟩
    · -- The graph decides what the scans and the terminal are.
      have hgraph : v.toGraph = w.toGraph := by
        rw [Graph.mk.injEq]
        exact ⟨hsteps, hlinks⟩
      exact eq_of_toGraph_eq v w hgraph

end Workflow

end Federation
