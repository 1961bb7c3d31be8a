import Federation.Name.Grammar
import Federation.Proofs.Text.Words

/-!
# Written Names Are Read Exactly

A text names a table or a column exactly if it is the qualified form of a name all of whose
parts are identifiers, gaps around the whole aside. Nothing of that kind is lost because a
part was read too far, since the dot between two parts belongs to neither, and nothing else
gets through, since a text is read to its end. So writing a name and reading it are inverse
to one another up to the gaps.

Names that come from elsewhere may hold anything; they have a qualified form all the same,
but it is not one that can be read.

## Main definitions

* `TableName.Plain`, `ColumnName.Plain`: Names whose parts are identifiers.
* `ReadsExactly`: Texts are read that are written forms, and no others.

## Theorems

* `ReadsWords.readsExactly`: A reader of leading parts makes a reader of whole texts.
* `tableName?_readsWords`, `columnName?_readsWords`: Reading a leading name.
* `names_read_exactly`: Qualified names are read exactly.
* `spaced_names_read`: Names between gaps, and names that are none.
-/

namespace Federation

open Text

variable {α : Type}

/-- Whether the parts of the name of a table are identifiers. -/
structure TableName.Plain (t : TableName) : Prop where
  catalog : Identifier t.catalog.text
  name : Identifier t.name

/-- Whether the parts of the name of a column are identifiers. -/
structure ColumnName.Plain (c : ColumnName) : Prop where
  table : c.table.Plain
  name : Identifier c.name

/-- Whether the texts that are read are the written forms of values of a grammar, gaps around
    them aside, and all others are refused. -/
structure ReadsExactly (ofText : String → Except NameError α) (Plain : α → Prop)
    (text : α → String) (refusal : String → NameError) : Prop where
  ok_iff : ∀ s a, ofText s = .ok a ↔ Plain a ∧ Padded (text a).toList s.toList
  error_iff : ∀ s e, ofText s = .error e ↔
    e = refusal s ∧ ∀ a, Plain a → ¬Padded (text a).toList s.toList
  ofText_text : ∀ a, Plain a → ofText (text a) = .ok a
  /-- What was read is written as the text is, but for the white space at its ends. -/
  text_eq : ∀ s a, ofText s = .ok a →
    (text a).toList = trimEnds isGap s.toList ∧ text a = trimBlank s

/-- A reader of leading parts of texts makes a reader of whole texts. -/
theorem Text.ReadsWords.readsExactly {reader : Reader α} {Plain : α → Prop} {text : α → String}
    (h : ReadsWords reader Plain text) (hedged : ∀ a, Plain a → Edged (text a).toList)
    {ofText : String → Except NameError α} {refusal : String → NameError}
    (hsome : ∀ s a, whole? reader s = some a → ofText s = .ok a)
    (hnone : ∀ s, whole? reader s = none → ofText s = .error (refusal s)) :
    ReadsExactly ofText Plain text refusal := by
  have hwhole := h.whole_eq_some hedged
  have hok : ∀ s a, ofText s = .ok a ↔ Plain a ∧ Padded (text a).toList s.toList := fun s a => by
    rw [← hwhole]
    cases hread : whole? reader s with
    | none =>
        rw [hnone s hread]
        exact iff_of_false nofun nofun
    | some b => rw [hsome s b hread, Except.ok.injEq, Option.some.injEq]
  constructor
  case ok_iff => exact hok
  case error_iff =>
    intro s e
    cases hread : whole? reader s with
    | none =>
        have hnobody : ∀ a, Plain a → ¬Padded (text a).toList s.toList := fun a ha hpadded => by
          rw [(hwhole s a).mpr ⟨ha, hpadded⟩] at hread
          cases hread
        rw [hnone s hread, Except.error.injEq, eq_comm, and_iff_left hnobody]
    | some a =>
        rcases (hwhole s a).mp hread with ⟨ha, hpadded⟩
        rw [hsome s a hread]
        exact iff_of_false nofun fun hnobody => hnobody.2 a ha hpadded
  case ofText_text =>
    intro a ha
    exact (hok _ a).mpr ⟨ha, [], [], nofun, nofun, by simp⟩
  case text_eq =>
    intro s a ha
    rcases (hok s a).mp ha with ⟨hplain, hpadded⟩
    have hu := hedged a hplain
    exact ⟨((trimEnds_eq_iff_padded hu _).mpr hpadded).symm, (trimBlank_of_padded hu hpadded).symm⟩

/-! ### Leading names -/

theorem TableName.Plain.edged {t : TableName} (h : t.Plain) : Edged t.text.toList := by
  unfold TableName.text
  rw [String.toList_append, String.toList_append]
  exact h.catalog.edged.append h.name.edged

theorem ColumnName.Plain.edged {c : ColumnName} (h : c.Plain) : Edged c.text.toList := by
  unfold ColumnName.text
  rw [String.toList_append, String.toList_append]
  exact h.table.edged.append h.name.edged

theorem tableName?_readsWords : ReadsWords tableName? TableName.Plain TableName.text := by
  have hplain : ∀ t : TableName, t.Plain ↔ ∃ catalog name,
      t = ⟨⟨catalog⟩, name⟩ ∧ Identifier catalog ∧ Identifier name := fun t => by
    constructor
    · exact fun h => ⟨t.catalog.text, t.name, rfl, h.catalog, h.name⟩
    · rintro ⟨_, _, rfl, hcatalog, hname⟩
      exact ⟨hcatalog, hname⟩
  exact identifier?_readsWords.qualified (fun catalog name => (⟨⟨catalog⟩, name⟩ : TableName))
    hplain fun _ _ => rfl

theorem columnName?_readsWords : ReadsWords columnName? ColumnName.Plain ColumnName.text := by
  have hplain : ∀ c : ColumnName, c.Plain ↔ ∃ table name,
      c = ⟨table, name⟩ ∧ table.Plain ∧ Identifier name := fun c => by
    constructor
    · exact fun h => ⟨c.table, c.name, rfl, h.table, h.name⟩
    · rintro ⟨_, _, rfl, htable, hname⟩
      exact ⟨htable, hname⟩
  exact tableName?_readsWords.qualified ColumnName.mk hplain fun _ _ => rfl

/-- Qualified names are read exactly, and a refusal quotes the text as it came. -/
theorem names_read_exactly :
    ReadsExactly TableName.ofText TableName.Plain TableName.text .invalidTable ∧
      ReadsExactly ColumnName.ofText ColumnName.Plain ColumnName.text .invalidColumn := by
  constructor
  · refine tableName?_readsWords.readsExactly (fun _ h => h.edged) (fun s t h => ?_) fun s h => ?_
    · rw [TableName.ofText, h]
    · rw [TableName.ofText, h]
  · refine columnName?_readsWords.readsExactly (fun _ h => h.edged) (fun s c h => ?_) fun s h => ?_
    · rw [ColumnName.ofText, h]
    · rw [ColumnName.ofText, h]

/-- Names between gaps are read, and a text that goes on after a name is refused as it came. -/
theorem spaced_names_read :
    TableName.ofText "\t demo._tmp\r\n" = .ok ⟨⟨"demo"⟩, "_tmp"⟩ ∧
      TableName.ofText " demo.t.id" = .error (.invalidTable " demo.t.id") ∧
        (∀ t : TableName, t.Plain → ¬Padded t.text.toList " demo.t.id".toList) ∧
          ColumnName.ofText " demo.t.id" = .ok ⟨⟨⟨"demo"⟩, "t"⟩, "id"⟩ ∧
            trimBlank " demo.t.id" = "demo.t.id" := by
  have htable : TableName.ofText " demo.t.id" = .error (.invalidTable " demo.t.id") := by decide
  have hcolumn : ColumnName.ofText " demo.t.id" = .ok ⟨⟨⟨"demo"⟩, "t"⟩, "id"⟩ := by decide
  refine ⟨by decide, htable, ?_, hcolumn, ?_⟩
  · exact ((names_read_exactly.1.error_iff _ _).mp htable).2
  · exact (names_read_exactly.2.text_eq _ _ hcolumn).2.symm

end Federation
