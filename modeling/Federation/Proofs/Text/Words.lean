import Federation.Proofs.Text.Cutting
import Federation.Text.Word

/-!
# What Readers Accept

A reader takes as much of a text as it can and knows nothing of what comes after. What it
accepts is therefore said of a text and what is left of it together: a word has been read if
the text goes on with something that is no part of a word. Said like this, it carries over
from one reader to those that are put together from it, and in the end nothing is left but
gaps, with which no word goes on.

The classes of characters are spelled out here once more, as ranges, so that what a word and
a gap are does not hang on how a reader tests for them.

## Main definitions

* `Letter`, `Digit`, `Identifier`: What a word consists of.
* `Gaps`, `Padded`: Gaps, and text between gaps.
* `Stops`: Text with which no word goes on.
* `ReadsWords`: A reader reads the written form of values, and nothing else.

## Theorems

* `identifier?_readsWords`: Identifiers are read as far as they go.
* `ReadsWords.qualified`: Reading a name that is qualified by another.
* `ReadsWords.whole_eq_some`: Reading all of a text but the gaps at its ends.
* `trimEnds_eq_iff_padded`: Trimming gaps.
-/

namespace Federation.Text

variable {α β : Type}

/-- A letter of the alphabet, or an underscore. -/
def Letter (c : Char) : Prop := ('A' ≤ c ∧ c ≤ 'Z') ∨ ('a' ≤ c ∧ c ≤ 'z') ∨ c = '_'

/-- A decimal digit. -/
def Digit (c : Char) : Prop := '0' ≤ c ∧ c ≤ '9'

/-- Whether a text is a letter followed by letters and digits. -/
def Identifier (s : String) : Prop :=
  ∃ first rest, s.toList = first :: rest ∧ Letter first ∧ ∀ c ∈ rest, Letter c ∨ Digit c

/-- Whether there are but spaces, tabs, carriage returns and line feeds. -/
def Gaps (cs : List Char) : Prop := ∀ c ∈ cs, c = ' ' ∨ c = '\t' ∨ c = '\r' ∨ c = '\n'

/-- Whether a text is another with gaps around it. -/
def Padded (u cs : List Char) : Prop := ∃ w₁ w₂, Gaps w₁ ∧ Gaps w₂ ∧ cs = w₁ ++ u ++ w₂

/-- Whether no word goes on with a text. -/
def Stops (rest : List Char) : Prop := ∀ c, rest.head? = some c → isWordChar c = false

/-- Whether a reader reads the written form of values of a grammar, where the text does not go
    on with a word, and nothing else. -/
def ReadsWords (reader : Reader α) (Plain : α → Prop) (text : α → String) : Prop :=
  ∀ cs a rest, reader cs = some (a, rest) ↔ Plain a ∧ cs = (text a).toList ++ rest ∧ Stops rest

/-! ### Classes of characters -/

theorem isUpper_iff (c : Char) : c.isUpper = true ↔ 'A' ≤ c ∧ c ≤ 'Z' := decide_eq_true_iff

theorem isLower_iff (c : Char) : c.isLower = true ↔ 'a' ≤ c ∧ c ≤ 'z' :=
  Bool.and_eq_true_iff.trans (and_congr decide_eq_true_iff decide_eq_true_iff)

theorem isDigit_iff (c : Char) : c.isDigit = true ↔ Digit c :=
  Bool.and_eq_true_iff.trans (and_congr decide_eq_true_iff decide_eq_true_iff)

theorem isWordStart_iff (c : Char) : isWordStart c = true ↔ Letter c := by
  have halpha : c.isAlpha = (c.isUpper || c.isLower) := rfl
  simp only [isWordStart, Letter, halpha, Bool.or_eq_true, beq_iff_eq, isUpper_iff, isLower_iff,
    or_assoc]

theorem isWordChar_iff (c : Char) : isWordChar c = true ↔ Letter c ∨ Digit c := by
  have halphanum : c.isAlphanum = (c.isAlpha || c.isDigit) := rfl
  rw [← isWordStart_iff, ← isDigit_iff]
  simp only [isWordChar, isWordStart, halphanum, Bool.or_eq_true, or_right_comm]

theorem isGap_iff (c : Char) : isGap c = true ↔ c = ' ' ∨ c = '\t' ∨ c = '\r' ∨ c = '\n' := by
  simp [isGap, or_assoc]

theorem gaps_iff (cs : List Char) : Gaps cs ↔ ∀ c ∈ cs, isGap c = true := by
  simp only [Gaps, isGap_iff]

instance (cs : List Char) : Decidable (Gaps cs) :=
  decidable_of_iff (cs.all isGap = true) (by rw [List.all_eq_true, gaps_iff])

theorem gaps_takeWhile (cs : List Char) : Gaps (cs.takeWhile isGap) :=
  (gaps_iff _).mpr fun _ h => List.mem_takeWhile_imp h

theorem Gaps.append {v w : List Char} (hv : Gaps v) (hw : Gaps w) : Gaps (v ++ w) := fun c h =>
  (List.mem_append.mp h).elim (hv c) (hw c)

theorem Padded.gap_or_mem {u cs : List Char} (h : Padded u cs) {c : Char} (hc : c ∈ cs) :
    isGap c = true ∨ c ∈ u := by
  rcases h with ⟨w₁, w₂, hw₁, hw₂, rfl⟩
  rcases List.mem_append.mp hc with hc | hc
  · exact (List.mem_append.mp hc).imp_left ((gaps_iff w₁).mp hw₁ c)
  · exact Or.inl ((gaps_iff w₂).mp hw₂ c hc)

/-- No white space is part of a word. -/
theorem isBlank_of_isWordChar {c : Char} (h : isWordChar c = true) : isBlank c = false := by
  have hrange : ∀ a b : Char, a ≤ b ↔ a.toNat ≤ b.toNat := fun _ _ => Iff.rfl
  have hcode : (48 ≤ c.toNat ∧ c.toNat ≤ 57) ∨ (65 ≤ c.toNat ∧ c.toNat ≤ 90) ∨
      (95 ≤ c.toNat ∧ c.toNat ≤ 122) := by
    rw [isWordChar_iff] at h
    simp only [Letter, Digit, hrange] at h
    rcases h with (hupper | hlower | rfl) | hdigit
    · exact Or.inr (Or.inl hupper)
    · exact Or.inr (Or.inr ⟨Nat.le_of_add_left_le (k := 2) hlower.1, hlower.2⟩)
    · exact Or.inr (Or.inr (by decide))
    · exact Or.inl hdigit
  simp only [isBlank, blankRanges, List.any_eq_false, Bool.and_eq_true, decide_eq_true_eq]
  intro r hr
  simp only [List.mem_cons, List.not_mem_nil, or_false] at hr
  rcases hr with rfl | rfl | rfl | rfl | rfl | rfl | rfl | rfl | rfl | rfl <;> omega

theorem isGap_of_isWordChar {c : Char} (h : isWordChar c = true) : isGap c = false := by
  have hblank := isBlank_of_isWordChar h
  cases hgap : isGap c with
  | false => rfl
  | true => exact absurd (isBlank_of_isGap hgap) (by simp [hblank])

-- No word goes on with gaps.
theorem Gaps.stops {cs : List Char} (h : Gaps cs) : Stops cs := by
  intro c hc
  cases hword : isWordChar c with
  | false => rfl
  | true =>
      have hgap := (gaps_iff cs).mp h c (List.mem_of_head? hc)
      exact absurd hgap (by simp [isGap_of_isWordChar hword])

/-! ### Edges -/

/-- Whether a text begins and ends with a part of a word. -/
structure Edged (u : List Char) : Prop where
  head : ∃ c, u.head? = some c ∧ isWordChar c = true
  last : ∃ c, u.getLast? = some c ∧ isWordChar c = true

namespace Edged

variable {u v w : List Char}

theorem of_all (hne : u ≠ []) (hall : ∀ c ∈ u, isWordChar c = true) : Edged u :=
  ⟨⟨u.head hne, List.head?_eq_some_head hne, hall _ (List.head_mem hne)⟩,
    ⟨u.getLast hne, List.getLast?_eq_some_getLast hne, hall _ (List.getLast_mem hne)⟩⟩

-- What stands between two texts does not show at the edges.
theorem append (hu : Edged u) (hv : Edged v) : Edged (u ++ w ++ v) := by
  rcases hu.head with ⟨c, hc, hcword⟩
  rcases hv.last with ⟨d, hd, hdword⟩
  refine ⟨⟨c, ?_, hcword⟩, ⟨d, ?_, hdword⟩⟩
  · rw [List.append_assoc, List.head?_append, hc]
    rfl
  · rw [List.getLast?_append, hd]
    rfl

/-- Trimming a class that words have no part of leaves such a text as it is. -/
theorem tight {p : Char → Bool} (hu : Edged u) (hp : ∀ c, isWordChar c = true → p c = false) :
    Tight p u := by
  rcases hu.head with ⟨c, hc, hcword⟩
  rcases hu.last with ⟨d, hd, hdword⟩
  constructor
  case head =>
    intro e he
    rw [hc, Option.some.injEq] at he
    exact he ▸ hp c hcword
  case last =>
    intro e he
    rw [hd, Option.some.injEq] at he
    exact he ▸ hp d hdword

-- It is not gaps alone that such a text is part of.
theorem not_gaps {w₁ w₂ : List Char} (hu : Edged u) : ¬Gaps (w₁ ++ u ++ w₂) := by
  rcases hu.head with ⟨c, hc, hword⟩
  intro hgaps
  have hmem : c ∈ w₁ ++ u ++ w₂ :=
    List.mem_append_left _ (List.mem_append_right _ (List.mem_of_head? hc))
  have hgap := (gaps_iff _).mp hgaps c hmem
  rw [isGap_of_isWordChar hword] at hgap
  cases hgap

end Edged

/-- Trimming gaps leaves a text if that is what stands between the gaps. -/
theorem trimEnds_eq_iff_padded {u : List Char} (hu : Edged u) (cs : List Char) :
    trimEnds isGap cs = u ↔ Padded u cs := by
  rw [trimEnds_eq_iff, and_iff_right (hu.tight fun c hc => isGap_of_isWordChar hc)]
  simp only [Padded, gaps_iff]

-- Trimming all white space takes off the gaps with it.
theorem trimBlank_of_padded {u s : String} (hu : Edged u.toList) (h : Padded u.toList s.toList) :
    trimBlank s = u := by
  rcases h with ⟨w₁, w₂, hw₁, hw₂, hs⟩
  unfold trimBlank
  rw [hs, trimEnds_append (fun c hc => isBlank_of_isGap ((gaps_iff w₁).mp hw₁ c hc))
    (fun c hc => isBlank_of_isGap ((gaps_iff w₂).mp hw₂ c hc))
    (hu.tight fun c hc => isBlank_of_isWordChar hc), String.ofList_toList]

-- Gaps are left out up to the first part of a word.
theorem dropWhile_gaps {w u rest : List Char} (hw : Gaps w) (hu : Edged u) :
    (w ++ u ++ rest).dropWhile isGap = u ++ rest := by
  rcases hu.head with ⟨c, hc, hword⟩
  rw [List.append_assoc]
  refine dropWhile_append_stop ((gaps_iff w).mp hw) fun d hd => ?_
  rw [List.head?_append, hc] at hd
  cases hd
  exact isGap_of_isWordChar hword

theorem Identifier.edged {s : String} (h : Identifier s) : Edged s.toList := by
  rcases h with ⟨first, rest, htext, hfirst, hrest⟩
  rw [htext]
  refine Edged.of_all (List.cons_ne_nil first rest) (List.forall_mem_cons.mpr ⟨?_, fun c hc => ?_⟩)
  · exact (isWordChar_iff first).mpr (Or.inl hfirst)
  · exact (isWordChar_iff c).mpr (hrest c hc)

/-! ### Readers -/

theorem mark?_eq_some (expected : Char) (cs rest : List Char) (u : Unit) :
    mark? expected cs = some (u, rest) ↔ cs = expected :: rest := by
  cases cs with
  | nil => exact iff_of_false nofun nofun
  | cons c others =>
      unfold mark?
      by_cases hc : c = expected
      · simp [hc]
      · simp [hc]

theorem whole?_eq_some (reader : Reader α) (s : String) (a : α) :
    whole? reader s = some a ↔
      ∃ rest, reader (s.toList.dropWhile isGap) = some (a, rest) ∧ Gaps rest := by
  unfold whole?
  cases reader (s.toList.dropWhile isGap) with
  | none => exact iff_of_false nofun nofun
  | some read =>
      obtain ⟨b, rest⟩ := read
      simp only [gaps_iff, List.all_eq_true]
      by_cases hrest : ∀ c ∈ rest, isGap c = true
      · rw [if_pos hrest]
        constructor
        · rintro ⟨⟩
          exact ⟨rest, rfl, hrest⟩
        · rintro ⟨_, ⟨⟩, _⟩
          rfl
      · rw [if_neg hrest]
        refine iff_of_false nofun ?_
        rintro ⟨_, ⟨⟩, hgaps⟩
        exact hrest hgaps

/-- Identifiers are read as far as they go. -/
theorem identifier?_readsWords : ReadsWords identifier? Identifier id := by
  intro cs w rest
  constructor
  · intro h
    cases cs with
    | nil => cases h
    | cons c others =>
        rw [identifier?] at h
        by_cases hc : isWordStart c = true
        · rw [if_pos hc] at h
          cases h
          refine ⟨⟨c, _, String.toList_ofList, (isWordStart_iff c).mp hc, fun d hd => ?_⟩, ?_,
            fun d hd => head_dropWhile hd⟩
          · exact (isWordChar_iff d).mp (List.mem_takeWhile_imp hd)
          · rw [id, String.toList_ofList, List.cons_append, List.takeWhile_append_dropWhile]
        · rw [if_neg hc] at h
          cases h
  · rintro ⟨⟨first, word, htext, hfirst, hword⟩, rfl, hstops⟩
    have hword : ∀ c ∈ word, isWordChar c = true := fun c hc =>
      (isWordChar_iff c).mpr (hword c hc)
    rw [id, htext, List.cons_append, identifier?, if_pos ((isWordStart_iff first).mpr hfirst),
      takeWhile_append_stop hword hstops, dropWhile_append_stop hword hstops, ← htext,
      String.ofList_toList]

namespace ReadsWords

variable {reader : Reader α} {Plain : α → Prop} {text : α → String}

/-- A name is read that is qualified by another. -/
theorem qualified (h : ReadsWords reader Plain text) (join : α → String → β)
    {PlainJoin : β → Prop} {textJoin : β → String}
    (hplain : ∀ b, PlainJoin b ↔ ∃ a w, b = join a w ∧ Plain a ∧ Identifier w)
    (htext : ∀ a w, textJoin (join a w) = text a ++ "." ++ w) :
    ReadsWords (fun cs => do
      let (a, cs) ← reader cs
      let (_, cs) ← mark? '.' cs
      let (w, cs) ← identifier? cs
      return (join a w, cs)) PlainJoin textJoin := by
  intro cs b rest
  have hsplit : ∀ a w, (textJoin (join a w)).toList ++ rest
      = (text a).toList ++ ('.' :: (w.toList ++ rest)) := fun a w => by
    rw [htext, String.toList_append, String.toList_append, List.append_assoc, List.append_assoc]
    rfl
  simp only [Option.bind_eq_bind, Option.bind_eq_some_iff, Option.pure_def, Option.some.injEq,
    Prod.exists, Prod.mk.injEq, mark?_eq_some, h _ _ _, identifier?_readsWords _ _ _]
  constructor
  · rintro ⟨a, _, ⟨ha, rfl, _⟩, _, _, rfl, w, _, ⟨hw, rfl, hstops⟩, rfl, rfl⟩
    exact ⟨(hplain _).mpr ⟨a, w, rfl, ha, hw⟩, (hsplit a w).symm, hstops⟩
  · rintro ⟨hb, rfl, hstops⟩
    rcases (hplain b).mp hb with ⟨a, w, rfl, ha, hw⟩
    refine ⟨a, _, ⟨ha, hsplit a w, ?_⟩, (), _, rfl, w, rest, ⟨hw, rfl, hstops⟩, rfl, rfl⟩
    -- The mark after the qualifier is no part of a word.
    intro c hc
    cases hc
    decide

/-- All of a text is read but the gaps at its ends. -/
theorem whole_eq_some (h : ReadsWords reader Plain text)
    (hedged : ∀ a, Plain a → Edged (text a).toList) (s : String) (a : α) :
    whole? reader s = some a ↔ Plain a ∧ Padded (text a).toList s.toList := by
  rw [whole?_eq_some]
  constructor
  · rintro ⟨rest, hread, hrest⟩
    rcases (h _ a rest).mp hread with ⟨ha, hcs, _⟩
    refine ⟨ha, s.toList.takeWhile isGap, rest, gaps_takeWhile _, hrest, ?_⟩
    rw [List.append_assoc, ← hcs, List.takeWhile_append_dropWhile]
  · rintro ⟨ha, w₁, w₂, hw₁, hw₂, hs⟩
    refine ⟨w₂, ?_, hw₂⟩
    rw [hs, dropWhile_gaps hw₁ (hedged a ha)]
    exact (h _ a w₂).mpr ⟨ha, rfl, hw₂.stops⟩

end ReadsWords

end Federation.Text
