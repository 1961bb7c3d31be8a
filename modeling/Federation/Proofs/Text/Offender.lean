import Federation.Proofs.Text.Tags

/-!
# What a Refusal Quotes

A text that lists no capabilities is refused with a quotation of what is wrong with it. What
is quoted is not what the reader stopped at: the text is cut once more, the white space around
each piece is taken off, and the first piece that is no tag is quoted. The two do not go by
the same white space. A reader skips spaces, tabs, carriage returns and line feeds; what is
taken off is all that counts as white space anywhere. Between the two are the disguised texts,
all of whose pieces are tags to the one and not to the other.

A disguised text is refused, and as no piece is found to be wrong, the whole of it is quoted;
read as a single capability, it is refused with the quotation of a tag. On all other texts the
quotation is right.

## Main definitions

* `IsTag`, `trimmedPieces`: The pieces of a text without white space, and whether they are tags.
* `QuotesOffender`: Refusals of a text quote what is no tag.
* `Disguised`: White space that no reader skips hides the tags of a text.
* `RefusalQuoted`: What the refusals of a text quote.

## Theorems

* `tags_iff_trimmed`: A tag between gaps, seen from the text without white space.
* `Capability.ofText_eq_error`, `CapabilitySet.ofText_eq_error`: Which texts are refused.
* `offendingTag_first`, `offendingTag_of_tags`: What is quoted.
* `refusal_quoted`: Refusals quote what is wrong exactly where the text is not disguised.
* `disguised_scan`: A tag after a space that does not break lines.
-/

namespace Federation

open Text

/-- Whether a text is the tag of a capability. -/
def IsTag (s : String) : Prop := ∃ c : Capability, c.tag = s

/-- The pieces of a text between commas, without the white space around them. -/
def trimmedPieces (s : String) : List String :=
  (s.toList.splitOn ',').map fun piece => trimBlank (String.ofList piece)

/-- Whether the refusals of a text quote what is no tag: the text itself where one capability
    was expected, and the first piece that is none where several were. -/
structure QuotesOffender (s : String) : Prop where
  single : ∀ e, Capability.ofText s = .error e → ∃ u, e = .invalidCapability u ∧ ¬IsTag u
  listed : ∀ e, CapabilitySet.ofText s = .error e → ∃ u before after,
    e = .invalidCapability u ∧ trimmedPieces s = before ++ u :: after ∧
      (∀ tag ∈ before, IsTag tag) ∧ ¬IsTag u

/-- Whether there is white space around the tags of a text that no reader skips. -/
structure Disguised (s : String) : Prop where
  tags : ∀ piece ∈ trimmedPieces s, IsTag piece
  blank : ∃ ch ∈ s.toList, isBlank ch = true ∧ isGap ch = false

/-- What the refusals of a text quote. -/
structure RefusalQuoted (s : String) : Prop where
  quotes_iff : QuotesOffender s ↔ ¬Disguised s
  /-- Of a disguised text all is quoted, although each of its pieces is a tag, -/
  listed : Disguised s → CapabilitySet.ofText s = .error (.invalidCapability s)
  /-- and if it is a single tag in disguise, that tag. -/
  single : Disguised s → ',' ∉ s.toList →
    Capability.ofText s = .error (.invalidCapability (trimBlank s)) ∧ IsTag (trimBlank s)

/-! ### White space -/

theorem isTag_iff (s : String) : IsTag s ↔ (Capability.ofTag? s).isNone = false := by
  rw [Option.isNone_eq_false_iff, Option.isSome_iff_exists]
  constructor
  · rintro ⟨c, rfl⟩
    exact ⟨c, c.ofTag?_tag⟩
  · rintro ⟨c, hc⟩
    exact ⟨c, Capability.tag_of_ofTag? hc⟩

-- A tag has no white space inside,
theorem isBlank_of_mem_tag {c : Capability} {ch : Char} (h : ch ∈ c.tag.toList) :
    isBlank ch = false := isBlank_of_isWordChar (isWordChar_of_mem_tag h)

/-- so all white space of a tag between gaps is gaps. -/
theorem tags_iff_trimmed (piece : List Char) (c : Capability) :
    Tags piece c ↔ trimBlank (String.ofList piece) = c.tag ∧
      ∀ ch ∈ piece, isBlank ch = true → isGap ch = true := by
  rw [tags_iff]
  constructor
  · intro hpadded
    refine ⟨trimBlank_of_padded (edged_tag c) (by rwa [String.toList_ofList]), ?_⟩
    intro ch hch hblank
    rcases hpadded.gap_or_mem hch with hgap | htag
    · exact hgap
    · rw [isBlank_of_mem_tag htag] at hblank
      cases hblank
  · rintro ⟨htrim, hgaps⟩
    rcases exists_trimEnds isBlank piece with ⟨_, w₁, w₂, hw₁, hw₂, hpiece⟩
    have htag : trimEnds isBlank piece = c.tag.toList := by
      rw [← htrim, trimBlank, String.toList_ofList, String.toList_ofList]
    rw [htag] at hpiece
    subst hpiece
    refine ⟨w₁, w₂, (gaps_iff w₁).mpr fun ch hch => ?_, (gaps_iff w₂).mpr fun ch hch => ?_, rfl⟩
    · exact hgaps ch (by simp [hch]) (hw₁ ch hch)
    · exact hgaps ch (by simp [hch]) (hw₂ ch hch)

theorem ne_comma_of_isBlank {ch : Char} (h : isBlank ch = true) : ch ≠ ',' := by
  rintro rfl
  exact absurd h (by decide)

-- A text with a comma is no tag, however much white space is taken off.
theorem comma_not_mem_of_isTag {s : String} (h : IsTag (trimBlank s)) : ',' ∉ s.toList := by
  rcases h with ⟨c, hc⟩
  rcases exists_trimEnds isBlank s.toList with ⟨_, w₁, w₂, hw₁, hw₂, hs⟩
  have htag : trimEnds isBlank s.toList = c.tag.toList := by
    rw [hc, trimBlank, String.toList_ofList]
  have hblank : ∀ w : List Char, (∀ ch ∈ w, isBlank ch = true) → ',' ∉ w := fun w hw hcomma =>
    ne_comma_of_isBlank (hw ',' hcomma) rfl
  rw [hs, htag]
  simp [hblank w₁ hw₁, hblank w₂ hw₂, comma_not_mem_tag c]

/-! ### What is refused -/

/-- A text that is no tag between gaps is refused where one capability is expected. -/
theorem Capability.ofText_eq_error (s : String) (e : NameError) :
    Capability.ofText s = .error e ↔
      e = .invalidCapability (trimBlank s) ∧ ∀ c, ¬Tags s.toList c := by
  have hread : ReadsExactly Capability.ofText (fun _ => True) Capability.tag
      fun s => .invalidCapability (trimBlank s) :=
    capability?_readsWords.readsExactly (fun c _ => edged_tag c)
      (fun s c h => by rw [Capability.ofText, h]) (fun s h => by rw [Capability.ofText, h])
  simp only [hread.error_iff, tags_iff, forall_const]

/-- A text is refused where several capabilities are expected if a piece of it is no tag between
    gaps, unless it is all gaps. -/
theorem CapabilitySet.ofText_eq_error (s : String) (e : NameError) :
    CapabilitySet.ofText s = .error e ↔ e = .invalidCapability (offendingTag s) ∧
      ¬Gaps s.toList ∧ ¬∀ piece ∈ s.toList.splitOn ',', ∃ c, Tags piece c := by
  rw [← not_or, ← (listing_read s).succeeds_iff]
  unfold CapabilitySet.ofText
  cases whole? capabilities? s with
  | none => simp [eq_comm]
  | some caps => simp

section Quotation

variable {s : String}

theorem mem_trimmedPieces (t : String) : t ∈ trimmedPieces s ↔
    ∃ piece ∈ s.toList.splitOn ',', trimBlank (String.ofList piece) = t := List.mem_map

theorem offendingTag_eq (s : String) : offendingTag s =
    ((trimmedPieces s).find? fun tag => (Capability.ofTag? tag).isNone).getD s := by
  unfold offendingTag trimmedPieces
  rw [pieces_eq_splitOn]

/-- The first piece that is no tag is quoted, -/
theorem offendingTag_first (h : ∃ piece ∈ trimmedPieces s, ¬IsTag piece) :
    ∃ before after, trimmedPieces s = before ++ offendingTag s :: after ∧
      (∀ tag ∈ before, IsTag tag) ∧ ¬IsTag (offendingTag s) := by
  rw [offendingTag_eq]
  cases hfind : (trimmedPieces s).find? fun tag => (Capability.ofTag? tag).isNone with
  | none =>
      rcases h with ⟨piece, hpiece, hno⟩
      refine absurd ((isTag_iff piece).mpr ?_) hno
      exact Bool.eq_false_iff.mpr (List.find?_eq_none.mp hfind piece hpiece)
  | some u =>
      rcases List.find?_eq_some_iff_append.mp hfind with ⟨hu, before, after, hpieces, hbefore⟩
      refine ⟨before, after, hpieces, fun tag htag => ?_, fun htag => ?_⟩
      · exact (isTag_iff tag).mpr (by simpa using hbefore tag htag)
      · exact absurd ((isTag_iff u).mp htag) (by simp [hu])

/-- and all of the text if there is none. -/
theorem offendingTag_of_tags (h : ∀ piece ∈ trimmedPieces s, IsTag piece) :
    offendingTag s = s := by
  rw [offendingTag_eq, List.find?_eq_none.mpr]
  · rfl
  · intro piece hpiece
    exact Bool.eq_false_iff.mp ((isTag_iff piece).mp (h piece hpiece))

/-! ### Disguised texts -/

-- A text without commas is its only piece.
theorem trimmedPieces_of_not_mem (h : ',' ∉ s.toList) : trimmedPieces s = [trimBlank s] := by
  rw [trimmedPieces, List.splitOn_eq_singleton h, List.map_singleton, String.ofList_toList]

/-- Where all pieces come out as tags, the text is read if and only if it is not disguised. -/
theorem disguised_iff (h : ∀ piece ∈ trimmedPieces s, IsTag piece) :
    Disguised s ↔ ¬∀ piece ∈ s.toList.splitOn ',', ∃ c, Tags piece c := by
  constructor
  · rintro ⟨_, ch, hch, hblank, hgap⟩ htags
    rcases (mem_iff_mem_piece (ne_comma_of_isBlank hblank)).mp hch with ⟨piece, hpiece, hmem⟩
    rcases htags piece hpiece with ⟨c, hc⟩
    have hskipped := ((tags_iff_trimmed piece c).mp hc).2 ch hmem hblank
    rw [hgap] at hskipped
    cases hskipped
  · intro hno
    refine ⟨h, ?_⟩
    by_contra hblank
    refine hno fun piece hpiece => ?_
    rcases h _ ((mem_trimmedPieces _).mpr ⟨piece, hpiece, rfl⟩) with ⟨c, hc⟩
    refine ⟨c, (tags_iff_trimmed piece c).mpr ⟨hc.symm, fun ch hch hskipped => ?_⟩⟩
    by_contra hgap
    have hmem := (mem_iff_mem_piece (ne_comma_of_isBlank hskipped)).mpr ⟨piece, hpiece, hch⟩
    exact hblank ⟨ch, hmem, hskipped, Bool.eq_false_iff.mpr hgap⟩

-- What hides the tags is no gap.
theorem Disguised.not_gaps (h : Disguised s) : ¬Gaps s.toList := by
  rcases h.blank with ⟨ch, hch, _, hgap⟩
  intro hgaps
  rw [(gaps_iff _).mp hgaps ch hch] at hgap
  cases hgap

theorem Disguised.listed (h : Disguised s) :
    CapabilitySet.ofText s = .error (.invalidCapability s) := by
  refine (CapabilitySet.ofText_eq_error s _).mpr ⟨?_, h.not_gaps, (disguised_iff h.tags).mp h⟩
  rw [offendingTag_of_tags h.tags]

theorem Disguised.single (h : Disguised s) (hcomma : ',' ∉ s.toList) :
    Capability.ofText s = .error (.invalidCapability (trimBlank s)) ∧ IsTag (trimBlank s) := by
  have hread := (disguised_iff h.tags).mp h
  rw [List.splitOn_eq_singleton hcomma, List.forall_mem_singleton] at hread
  refine ⟨(Capability.ofText_eq_error s _).mpr ⟨rfl, fun c hc => hread ⟨c, hc⟩⟩, h.tags _ ?_⟩
  rw [trimmedPieces_of_not_mem hcomma]
  exact List.mem_singleton_self _

end Quotation

/-- Refusals quote what is wrong exactly where the text is not disguised. -/
theorem refusal_quoted (s : String) : RefusalQuoted s := by
  constructor
  case listed => exact Disguised.listed
  case single => exact Disguised.single
  case quotes_iff =>
    constructor
    · intro hquotes hdisguised
      rcases hquotes.listed _ hdisguised.listed with ⟨u, before, after, _, hpieces, _, hu⟩
      exact hu (hdisguised.tags u (by simp [hpieces]))
    · intro hplain
      constructor
      case single =>
        intro e he
        rcases (Capability.ofText_eq_error s e).mp he with ⟨rfl, hno⟩
        refine ⟨_, rfl, fun htag => hplain ?_⟩
        have hcomma := comma_not_mem_of_isTag htag
        refine (disguised_iff ?_).mpr ?_
        · rw [trimmedPieces_of_not_mem hcomma]
          exact List.forall_mem_singleton.mpr htag
        · rw [List.splitOn_eq_singleton hcomma, List.forall_mem_singleton]
          exact fun ⟨c, hc⟩ => hno c hc
      case listed =>
        intro e he
        rcases (CapabilitySet.ofText_eq_error s e).mp he with ⟨rfl, _, hno⟩
        have hstray : ∃ piece ∈ trimmedPieces s, ¬IsTag piece := by
          by_contra hall
          simp only [not_exists, not_and, not_not] at hall
          exact hplain ((disguised_iff hall).mpr hno)
        rcases offendingTag_first hstray with ⟨before, after, hquoted⟩
        exact ⟨_, before, after, rfl, hquoted⟩

/-- A tag after a space that does not break lines is refused, alone and in a listing, and no
    refusal quotes what is wrong: one quotes the tag, the other all of the listing. -/
theorem disguised_scan :
    Capability.ofText "\u00a0SCAN" = .error (.invalidCapability "SCAN") ∧
      CapabilitySet.ofText "\u00a0SCAN,PROJECT"
          = .error (.invalidCapability "\u00a0SCAN,PROJECT") ∧
        ¬QuotesOffender "\u00a0SCAN" ∧ ¬QuotesOffender "\u00a0SCAN,PROJECT" := by
  have hsingle : Capability.ofText "\u00a0SCAN" = .error (.invalidCapability "SCAN") := by decide
  have hlisted : CapabilitySet.ofText "\u00a0SCAN,PROJECT"
      = .error (.invalidCapability "\u00a0SCAN,PROJECT") := by decide
  have hpieces : trimmedPieces "\u00a0SCAN,PROJECT" = ["SCAN", "PROJECT"] := by decide
  refine ⟨hsingle, hlisted, fun h => ?_, fun h => ?_⟩
  · rcases h.single _ hsingle with ⟨u, ⟨⟩, hno⟩
    exact hno ⟨.scan, rfl⟩
  · rcases h.listed _ hlisted with ⟨u, before, after, _, hsplit, _, hno⟩
    have hu : u ∈ ["SCAN", "PROJECT"] := by
      rw [← hpieces, hsplit]
      exact List.mem_append_right _ List.mem_cons_self
    rcases List.mem_cons.mp hu with rfl | hu
    · exact hno ⟨.scan, rfl⟩
    · exact hno ⟨.project, (List.mem_singleton.mp hu).symm⟩

end Federation
