import Federation.Capability.Grammar
import Federation.Proofs.Text.Names
import Mathlib.Data.List.Forall2

/-!
# Written Capabilities Are Read Exactly

A listing of capabilities is read from the left: a tag, and then a comma and a tag for as long
as there are any. A text is a listing of capabilities in another sense as well: cut at the
commas, each of its pieces is a tag with gaps around it. The two come to the same, so whether
a text is accepted can be told from its pieces one by one, in whatever order and however often
a capability is listed. The one text that is accepted although its only piece is no tag is
that of gaps alone, which is the listing of nothing.

A comma that no tag follows is left unread. What shows that it is refused in the end is that
nothing but gaps may be left over.

## Main definitions

* `Tags`: A piece is a tag, gaps around it aside.
* `Further`: The part of a listing after its first tag.
* `NoListing`: A text is no listing of capabilities.
* `ListingRead`: What is read of a text that may list capabilities.

## Theorems

* `capability?_readsWords`: Reading a leading tag.
* `further_iff_pieces`: The part after the first tag, seen from its pieces.
* `whole?_capabilities`: What is listed, seen from the pieces.
* `noListing_of_piece`: A piece that is no tag.
* `listing_read`: Listings are read exactly.
* `spaced_listing_read`: A listing with gaps and a repetition, and one with a comma too many.
-/

namespace Federation

open Text

/-! ### Tags -/

-- Tags are spelled in capital letters and underscores, with a letter first.
theorem tag_spelling (c : Capability) :
    ∃ first rest, c.tag.toList = first :: rest ∧ first.isUpper = true ∧
      (first :: rest).all (fun ch => ch.isUpper || ch == '_') = true := by
  cases c <;> exact ⟨_, _, String.toList_ofList, by decide, by decide⟩

theorem isUpper_of_mem_tag {c : Capability} {ch : Char} (h : ch ∈ c.tag.toList) :
    ch.isUpper = true ∨ ch = '_' := by
  rcases tag_spelling c with ⟨first, rest, htext, _, hall⟩
  rw [htext] at h
  simpa using List.all_eq_true.mp hall ch h

-- Where one tag begins with another, it goes on with an underscore,
theorem tag_within_tag : (Capability.all.all fun c => Capability.all.all fun e =>
    !c.tag.toList.isPrefixOf e.tag.toList ||
      decide ((e.tag.toList.drop c.tag.toList.length).head? ∈ [none, some '_'])) = true := by
  decide +kernel

-- and therefore not with a tag.
theorem tag_append_ne (c d e : Capability) : c.tag.toList ++ d.tag.toList ≠ e.tag.toList := by
  intro h
  have hwithin := List.all_eq_true.mp (List.all_eq_true.mp tag_within_tag c (Capability.mem_all c))
    e (Capability.mem_all e)
  rcases tag_spelling d with ⟨first, rest, htext, hupper, _⟩
  rw [← h, List.drop_left, htext] at hwithin
  have hbegins : c.tag.toList.isPrefixOf (c.tag.toList ++ first :: rest) = true :=
    List.isPrefixOf_iff_prefix.mpr (List.prefix_append _ _)
  have hhead : first = '_' := by simpa [hbegins] using hwithin
  rw [hhead] at hupper
  exact absurd hupper (by decide)

theorem isLower_of_mem_tag {c : Capability} {ch : Char} (h : ch ∈ c.tag.toList) :
    ch.isLower = false := by
  rcases isUpper_of_mem_tag h with hupper | rfl
  · rw [Bool.eq_false_iff]
    intro hlower
    have hrange := Char.le_trans ((isLower_iff ch).mp hlower).1 ((isUpper_iff ch).mp hupper).2
    exact absurd hrange (by decide)
  · rfl

theorem letter_of_mem_tag {c : Capability} {ch : Char} (h : ch ∈ c.tag.toList) : Letter ch := by
  rcases isUpper_of_mem_tag h with hupper | rfl
  · exact Or.inl ((isUpper_iff ch).mp hupper)
  · exact Or.inr (Or.inr rfl)

theorem isWordChar_of_mem_tag {c : Capability} {ch : Char} (h : ch ∈ c.tag.toList) :
    isWordChar ch = true := (isWordChar_iff ch).mpr (Or.inl (letter_of_mem_tag h))

theorem identifier_tag (c : Capability) : Identifier c.tag := by
  have hletter := fun ch (h : ch ∈ c.tag.toList) => letter_of_mem_tag h
  rcases tag_spelling c with ⟨first, rest, htext, _, _⟩
  rw [htext, List.forall_mem_cons] at hletter
  exact ⟨first, rest, htext, hletter.1, fun ch hch => Or.inl (hletter.2 ch hch)⟩

theorem edged_tag (c : Capability) : Edged c.tag.toList := (identifier_tag c).edged

theorem comma_not_mem_tag (c : Capability) : ',' ∉ c.tag.toList := fun h =>
  absurd (isWordChar_of_mem_tag h) (by decide)

/-- Reading a leading tag. -/
theorem capability?_readsWords : ReadsWords capability? (fun _ => True) Capability.tag := by
  intro cs c rest
  unfold capability?
  simp only [Option.bind_eq_bind, Option.bind_eq_some_iff, Option.pure_def, Option.some.injEq,
    Prod.exists, Prod.mk.injEq, identifier?_readsWords _ _ _, true_and]
  constructor
  · rintro ⟨word, _, ⟨_, rfl, hstops⟩, _, hword, rfl, rfl⟩
    rw [Capability.tag_of_ofTag? hword]
    exact ⟨rfl, hstops⟩
  · rintro ⟨rfl, hstops⟩
    exact ⟨c.tag, rest, ⟨identifier_tag c, rfl, hstops⟩, c, c.ofTag?_tag, rfl, rfl⟩

/-- Whether a piece of text is the tag of a capability, gaps around it aside. -/
def Tags (piece : List Char) (c : Capability) : Prop := trimEnds isGap piece = c.tag.toList

theorem tags_iff (piece : List Char) (c : Capability) :
    Tags piece c ↔ Padded c.tag.toList piece := trimEnds_eq_iff_padded (edged_tag c) piece

/-! ### Reading on -/

/-- The part of a listing after its first tag: commas and tags, gaps around both. -/
inductive Further : List Capability → List Char → Prop
  | done (w : List Char) (hw : Gaps w) : Further [] w
  | more (w₁ w₂ : List Char) (c : Capability) (caps : List Capability) (rest : List Char)
      (hw₁ : Gaps w₁) (hw₂ : Gaps w₂) (hrest : Further caps rest) :
      Further (c :: caps) (w₁ ++ ',' :: (w₂ ++ c.tag.toList ++ rest))

-- No word goes on with a comma or with gaps before one.
theorem Further.stops {caps : List Capability} {cs : List Char} (h : Further caps cs) :
    Stops cs := by
  cases h with
  | done _ hw => exact hw.stops
  | more w₁ _ _ _ _ hw₁ _ _ =>
      intro ch hch
      cases w₁ with
      | nil =>
          cases hch
          decide
      | cons gap more =>
          cases hch
          exact hw₁.stops _ rfl

theorem nextCapability?_eq_some (cs rest : List Char) (c : Capability) :
    nextCapability? cs = some (c, rest) ↔ ∃ w₁ w₂, Gaps w₁ ∧ Gaps w₂ ∧ Stops rest ∧
      cs = w₁ ++ ',' :: (w₂ ++ c.tag.toList ++ rest) := by
  unfold nextCapability?
  simp only [Option.bind_eq_bind, Option.bind_eq_some_iff, Prod.exists, mark?_eq_some,
    capability?_readsWords _ _ _, true_and]
  constructor
  · rintro ⟨_, tail, hcomma, htag, hstops⟩
    refine ⟨cs.takeWhile isGap, tail.takeWhile isGap, gaps_takeWhile cs, gaps_takeWhile tail,
      hstops, ?_⟩
    rw [List.append_assoc, ← htag, List.takeWhile_append_dropWhile, ← hcomma,
      List.takeWhile_append_dropWhile]
  · rintro ⟨w₁, w₂, hw₁, hw₂, hstops, rfl⟩
    refine ⟨(), _, dropWhile_append_stop ((gaps_iff w₁).mp hw₁) ?_,
      dropWhile_gaps hw₂ (edged_tag c), hstops⟩
    rintro _ ⟨⟩
    decide

/-- What is read is there, -/
theorem further_of_read (most : Nat) (cs rest : List Char) (caps : List Capability)
    (h : furtherCapabilities most cs = (caps, rest)) (hrest : Gaps rest) : Further caps cs := by
  induction most generalizing cs caps with
  | zero =>
      cases h
      exact Further.done _ hrest
  | succ most ih =>
      rw [furtherCapabilities] at h
      cases hnext : nextCapability? cs with
      | none =>
          rw [hnext] at h
          cases h
          exact Further.done _ hrest
      | some read =>
          obtain ⟨c, tail⟩ := read
          rcases (nextCapability?_eq_some cs tail c).mp hnext with ⟨w₁, w₂, hw₁, hw₂, _, rfl⟩
          rw [hnext] at h
          cases h
          exact Further.more w₁ w₂ c _ tail hw₁ hw₂ (ih tail _ rfl)

/-- and what is there is read, as long as one may go on. -/
theorem Further.read {caps : List Capability} {cs : List Char} (h : Further caps cs)
    (most : Nat) (hmost : cs.length ≤ most) :
    ∃ rest, furtherCapabilities most cs = (caps, rest) ∧ Gaps rest := by
  induction h generalizing most with
  | done w hw =>
      refine ⟨w, ?_, hw⟩
      have hnext : nextCapability? w = none := by
        unfold nextCapability?
        rw [List.dropWhile_eq_nil_iff.mpr ((gaps_iff w).mp hw)]
        rfl
      cases most with
      | zero => rfl
      | succ most => rw [furtherCapabilities, hnext]
  | more w₁ w₂ c caps rest hw₁ hw₂ hrest ih =>
      -- The comma at least is read, so there is less to come.
      simp only [List.length_append, List.length_cons] at hmost
      obtain ⟨most, rfl⟩ : ∃ n, most = n + 1 := ⟨most - 1, by omega⟩
      rcases ih most (by omega) with ⟨last, hread, hlast⟩
      refine ⟨last, ?_, hlast⟩
      rw [furtherCapabilities, (nextCapability?_eq_some _ rest c).mpr
        ⟨w₁, w₂, hw₁, hw₂, hrest.stops, rfl⟩]
      simp only [hread]

/-! ### Pieces -/

-- Gaps are cut nowhere.
theorem Text.Gaps.comma_not_mem {w : List Char} (hw : Gaps w) : ',' ∉ w := fun h =>
  absurd (hw ',' h) (by decide)

-- Neither is a tag with gaps before it.
theorem comma_not_mem_lead {w : List Char} (hw : Gaps w) (c : Capability) :
    ',' ∉ w ++ c.tag.toList := fun h =>
  (List.mem_append.mp h).elim hw.comma_not_mem (comma_not_mem_tag c)

/-- The part after the first tag, seen from its pieces. -/
theorem further_iff_pieces (caps : List Capability) (cs : List Char) :
    Further caps cs ↔
      ∃ w pieces, cs.splitOn ',' = w :: pieces ∧ Gaps w ∧ List.Forall₂ Tags pieces caps := by
  constructor
  · intro h
    induction h with
    | done w hw => exact ⟨w, [], List.splitOn_eq_singleton hw.comma_not_mem, hw, List.Forall₂.nil⟩
    | more w₁ w₂ c caps rest hw₁ hw₂ _ ih =>
        rcases ih with ⟨w, pieces, hrest, hw, hpieces⟩
        refine ⟨w₁, (w₂ ++ c.tag.toList ++ w) :: pieces, ?_, hw₁, List.Forall₂.cons ?_ hpieces⟩
        · rw [List.splitOn_append_cons_self_of_not_mem hw₁.comma_not_mem,
            splitOn_append (comma_not_mem_lead hw₂ c) hrest]
        · exact (tags_iff _ c).mpr ⟨w₂, w, hw₂, hw, rfl⟩
  · rintro ⟨w, pieces, hcs, hw, hpieces⟩
    induction hpieces generalizing cs w with
    | nil => exact Further.done cs (eq_of_splitOn_singleton hcs ▸ hw)
    | @cons piece c _ _ htags _ ih =>
        rcases exists_of_splitOn_cons hcs with ⟨tail, rfl, htail⟩
        rcases (tags_iff piece c).mp htags with ⟨w₁, w₂, hw₁, hw₂, rfl⟩
        rcases exists_of_splitOn_append (w₁ ++ c.tag.toList) htail with ⟨rest, rfl, hrest⟩
        exact Further.more w w₁ c _ rest hw hw₁ (ih rest w₂ hrest hw₂)

/-- What is listed, seen from the pieces. -/
theorem whole?_capabilities (s : String) (caps : List Capability) :
    whole? capabilities? s = some caps ↔
      (Gaps s.toList ∧ caps = []) ∨ List.Forall₂ Tags (s.toList.splitOn ',') caps := by
  rw [whole?_eq_some]
  constructor
  · rintro ⟨rest, hread, hrest⟩
    have hfront := gaps_takeWhile s.toList
    have hsplit := List.takeWhile_append_dropWhile (p := isGap) (l := s.toList)
    rw [← hsplit]
    unfold capabilities? at hread
    cases hfirst : capability? (s.toList.dropWhile isGap) with
    | none =>
        rw [hfirst] at hread
        cases hread
        exact Or.inl ⟨hfront.append hrest, rfl⟩
    | some read =>
        obtain ⟨c, tail⟩ := read
        rw [hfirst] at hread
        cases hread
        rcases (capability?_readsWords _ c tail).mp hfirst with ⟨_, hstart, _⟩
        rcases (further_iff_pieces _ tail).mp (further_of_read _ tail _ _ rfl hrest) with
          ⟨w, pieces, htail, hw, hpieces⟩
        rw [hstart, ← List.append_assoc, splitOn_append (comma_not_mem_lead hfront c) htail]
        exact Or.inr (List.Forall₂.cons ((tags_iff _ c).mpr ⟨_, w, hfront, hw, rfl⟩) hpieces)
  · rintro (⟨hgaps, rfl⟩ | hpieces)
    · refine ⟨[], ?_, nofun⟩
      rw [List.dropWhile_eq_nil_iff.mpr ((gaps_iff _).mp hgaps)]
      rfl
    · cases hsplit : s.toList.splitOn ',' with
      | nil => exact absurd hsplit (List.splitOn_ne_nil _ _)
      | cons piece others =>
          rw [hsplit] at hpieces
          cases hpieces with
          | @cons _ c _ more htags hothers =>
              rcases (tags_iff piece c).mp htags with ⟨w₁, w₂, hw₁, hw₂, rfl⟩
              rcases exists_of_splitOn_append (w₁ ++ c.tag.toList) hsplit with ⟨tail, hs, htail⟩
              have hfurther := (further_iff_pieces more tail).mpr ⟨w₂, others, htail, hw₂, hothers⟩
              rcases hfurther.read tail.length (Nat.le_refl _) with ⟨rest, hread, hrest⟩
              refine ⟨rest, ?_, hrest⟩
              have hfirst := (capability?_readsWords (c.tag.toList ++ tail) c tail).mpr
                ⟨trivial, rfl, hfurther.stops⟩
              rw [hs, dropWhile_gaps hw₁ (edged_tag c), capabilities?, hfirst]
              simp only [hread]

/-! ### Listings -/

/-- A text that is read tells which capabilities it lists. -/
theorem CapabilitySet.ofText_eq_ok (s : String) (set : CapabilitySet) :
    CapabilitySet.ofText s = .ok set ↔ ∃ caps, set = CapabilitySet.ofList caps ∧
      ((Gaps s.toList ∧ caps = []) ∨ List.Forall₂ Tags (s.toList.splitOn ',') caps) := by
  have hwhole := whole?_capabilities s
  unfold CapabilitySet.ofText
  cases hread : whole? capabilities? s with
  | none =>
      refine iff_of_false nofun ?_
      rintro ⟨caps, _, hcaps⟩
      exact absurd ((hwhole caps).mpr hcaps) (by simp [hread])
  | some caps =>
      simp only [← hwhole, hread, Except.ok.injEq, Option.some.injEq, exists_eq_right', eq_comm]

-- A piece is the tag of one capability.
theorem Tags.unique {piece : List Char} {c d : Capability} (hc : Tags piece c)
    (hd : Tags piece d) : c = d := by
  have htag : c.tag = d.tag := String.toList_inj.mp (hc.symm.trans hd)
  exact Option.some.inj ((c.ofTag?_tag).symm.trans (htag ▸ d.ofTag?_tag))

-- What is listed is what the pieces are tags of.
theorem mem_iff_tags {pieces : List (List Char)} {caps : List Capability}
    (h : List.Forall₂ Tags pieces caps) (c : Capability) :
    c ∈ caps ↔ ∃ piece ∈ pieces, Tags piece c := by
  induction h with
  | nil => simp
  | @cons piece d _ _ htags _ ih =>
      have hpiece : Tags piece c ↔ c = d := ⟨fun hc => hc.unique htags, fun hc => hc ▸ htags⟩
      rw [List.mem_cons, List.exists_mem_cons_iff, hpiece, ih]

theorem exists_tags_iff (pieces : List (List Char)) :
    (∃ caps, List.Forall₂ Tags pieces caps) ↔ ∀ piece ∈ pieces, ∃ c, Tags piece c := by
  induction pieces with
  | nil => exact iff_of_true ⟨[], List.Forall₂.nil⟩ nofun
  | cons piece others ih =>
      rw [List.forall_mem_cons, ← ih]
      constructor
      · rintro ⟨_, htags⟩
        cases htags with
        | cons hc hcaps => exact ⟨⟨_, hc⟩, ⟨_, hcaps⟩⟩
      · rintro ⟨⟨c, hc⟩, ⟨caps, hcaps⟩⟩
        exact ⟨c :: caps, List.Forall₂.cons hc hcaps⟩

/-- Whether a text is no listing of capabilities. -/
def NoListing (s : String) : Prop := ∀ set, CapabilitySet.ofText s ≠ .ok set

/-- What is read of a text that may list capabilities. -/
structure ListingRead (s : String) : Prop where
  succeeds_iff : (∃ set, CapabilitySet.ofText s = .ok set) ↔
    Gaps s.toList ∨ ∀ piece ∈ s.toList.splitOn ',', ∃ c, Tags piece c
  ok_iff : ∀ set, CapabilitySet.ofText s = .ok set ↔
    (Gaps s.toList ∧ set = ∅) ∨ (∀ piece ∈ s.toList.splitOn ',', ∃ c, Tags piece c) ∧
      ∀ c, set.declares c = true ↔ ∃ piece ∈ s.toList.splitOn ',', Tags piece c
  leading : ∀ w rest, Gaps w → s.toList = w ++ ',' :: rest → NoListing s
  trailing : ∀ rest w, Gaps w → s.toList = rest ++ ',' :: w → NoListing s
  doubled : ∀ before w after, Gaps w → s.toList = before ++ ',' :: (w ++ ',' :: after) → NoListing s
  two_tags : ∀ piece ∈ s.toList.splitOn ',', ∀ (c d : Capability) w, Gaps w →
    Padded (c.tag.toList ++ w ++ d.tag.toList) piece → NoListing s
  lower_case : ∀ ch ∈ s.toList, ch.isLower = true → NoListing s
  /-- However a set is listed, with whatever gaps, the listing is read as that set. -/
  joined : ∀ (caps : List Capability) (pieces : List (List Char)) (w : List Char)
    (set : CapabilitySet), (∀ c, set.declares c = true ↔ c ∈ caps) → Gaps w →
      List.Forall₂ (fun c piece => Padded c.tag.toList piece) caps pieces →
        s.toList = w ++ [','].intercalate pieces → CapabilitySet.ofText s = .ok set

/-! ### Pieces that are no tags -/

section Refusal

variable {s : String} {piece w : List Char}

/-- A piece that is no tag is not accepted unless it is all there is and nothing but gaps. -/
theorem noListing_of_piece (hgaps : ¬Gaps s.toList) (hpiece : piece ∈ s.toList.splitOn ',')
    (hnone : ∀ c, ¬Tags piece c) : NoListing s := by
  intro set hset
  rcases (CapabilitySet.ofText_eq_ok s set).mp hset with ⟨caps, _, ⟨h, _⟩ | htags⟩
  · exact hgaps h
  · rcases (exists_tags_iff _).mp ⟨caps, htags⟩ piece hpiece with ⟨c, hc⟩
    exact hnone c hc

-- Gaps are no tag.
theorem not_tags_of_gaps (hw : Gaps w) (c : Capability) : ¬Tags w c := by
  intro htags
  rcases (tags_iff w c).mp htags with ⟨w₁, w₂, _, _, rfl⟩
  exact (edged_tag c).not_gaps hw

/-- A piece of nothing but gaps is not accepted beside others. -/
theorem noListing_of_gaps (hw : Gaps w) (hpiece : w ∈ s.toList.splitOn ',')
    (hcomma : ',' ∈ s.toList) : NoListing s :=
  noListing_of_piece (fun h => h.comma_not_mem hcomma) hpiece (not_tags_of_gaps hw)

/-- No tag is made of two, with gaps between them or without. -/
theorem noListing_of_two_tags (hpiece : piece ∈ s.toList.splitOn ',') (c d : Capability)
    (hw : Gaps w) (hpadded : Padded (c.tag.toList ++ w ++ d.tag.toList) piece) : NoListing s := by
  have hedged : Edged (c.tag.toList ++ w ++ d.tag.toList) := (edged_tag c).append (edged_tag d)
  refine noListing_of_piece (fun hgaps => ?_) hpiece fun e htags => ?_
  · -- A text of gaps has no piece but itself, and the piece has letters.
    rw [List.splitOn_eq_singleton hgaps.comma_not_mem, List.mem_singleton] at hpiece
    rcases hpadded with ⟨w₁, w₂, _, _, hsplit⟩
    rw [← hpiece, hsplit] at hgaps
    exact hedged.not_gaps hgaps
  · have htag : c.tag.toList ++ w ++ d.tag.toList = e.tag.toList :=
      ((trimEnds_eq_iff_padded hedged piece).mpr hpadded).symm.trans htags
    cases w with
    | nil =>
        rw [List.append_nil] at htag
        exact tag_append_ne c d e htag
    | cons gap more =>
        have hmem : gap ∈ e.tag.toList := by
          rw [← htag]
          simp
        have hgap := (gaps_iff _).mp hw gap List.mem_cons_self
        rw [isGap_of_isWordChar (isWordChar_of_mem_tag hmem)] at hgap
        cases hgap

/-- Tags are in upper case. -/
theorem noListing_of_lower {ch : Char} (hch : ch ∈ s.toList) (hlower : ch.isLower = true) :
    NoListing s := by
  have hcomma : ch ≠ ',' := by
    rintro rfl
    exact absurd hlower (by decide)
  have hgap : ¬isGap ch = true := fun hskipped => by
    rcases (isGap_iff ch).mp hskipped with rfl | rfl | rfl | rfl <;>
      exact absurd hlower (by decide)
  rcases (mem_iff_mem_piece hcomma).mp hch with ⟨piece, hpiece, hmem⟩
  refine noListing_of_piece (fun h => hgap ((gaps_iff _).mp h ch hch)) hpiece fun c htags => ?_
  rcases ((tags_iff piece c).mp htags).gap_or_mem hmem with hskipped | htag
  · exact hgap hskipped
  · rw [isLower_of_mem_tag htag] at hlower
    cases hlower

end Refusal

/-! ### Listings -/

/-- The pieces of tags that were joined are those tags. -/
theorem forall₂_tags_of_joined (caps : List Capability) (pieces : List (List Char))
    (w : List Char) (hw : Gaps w)
    (hpieces : List.Forall₂ (fun c piece => Padded c.tag.toList piece) caps pieces) :
    (Gaps (w ++ [','].intercalate pieces) ∧ caps = []) ∨
      List.Forall₂ Tags ((w ++ [','].intercalate pieces).splitOn ',') caps := by
  have htags : List.Forall₂ Tags pieces caps :=
    (hpieces.imp fun c piece h => (tags_iff piece c).mpr h).flip
  have hcomma : ∀ piece ∈ pieces, ',' ∉ piece := by
    intro piece hpiece
    rcases (exists_tags_iff pieces).mp ⟨caps, htags⟩ piece hpiece with ⟨c, hc⟩
    rcases (tags_iff piece c).mp hc with ⟨w₁, w₂, hw₁, hw₂, rfl⟩
    simp [hw₁.comma_not_mem, hw₂.comma_not_mem, comma_not_mem_tag c]
  cases hpieces with
  | nil =>
      refine Or.inl ⟨?_, rfl⟩
      simpa using hw
  | @cons c piece more others hpiece hothers =>
      cases htags with
      | cons _ hothers =>
          have hsplit := splitOn_append hw.comma_not_mem
            (List.splitOn_intercalate ',' hcomma (List.cons_ne_nil piece others))
          rw [hsplit]
          -- Gaps in front are gaps of the first piece.
          rcases hpiece with ⟨w₁, w₂, hw₁, hw₂, rfl⟩
          have hfirst : Tags (w ++ (w₁ ++ c.tag.toList ++ w₂)) c :=
            (tags_iff _ c).mpr ⟨w ++ w₁, w₂, hw.append hw₁, hw₂, by simp only [List.append_assoc]⟩
          exact Or.inr (List.Forall₂.cons hfirst hothers)

/-- Listings of capabilities are read exactly. -/
theorem listing_read (s : String) : ListingRead s := by
  have hok := CapabilitySet.ofText_eq_ok s
  have htags := exists_tags_iff (s.toList.splitOn ',')
  constructor
  case succeeds_iff =>
    rw [← htags]
    constructor
    · rintro ⟨set, hset⟩
      rcases (hok set).mp hset with ⟨caps, _, ⟨hgaps, _⟩ | hcaps⟩
      · exact Or.inl hgaps
      · exact Or.inr ⟨caps, hcaps⟩
    · rintro (hgaps | ⟨caps, hcaps⟩)
      · exact ⟨_, (hok _).mpr ⟨[], rfl, Or.inl ⟨hgaps, rfl⟩⟩⟩
      · exact ⟨_, (hok _).mpr ⟨caps, rfl, Or.inr hcaps⟩⟩
  case ok_iff =>
    intro set
    rw [hok, ← htags]
    constructor
    · rintro ⟨caps, rfl, ⟨hgaps, rfl⟩ | hcaps⟩
      · exact Or.inl ⟨hgaps, rfl⟩
      · refine Or.inr ⟨⟨caps, hcaps⟩, fun c => ?_⟩
        rw [CapabilitySet.declares_ofList, mem_iff_tags hcaps]
    · rintro (⟨hgaps, rfl⟩ | ⟨⟨caps, hcaps⟩, hdeclares⟩)
      · exact ⟨[], rfl, Or.inl ⟨hgaps, rfl⟩⟩
      · refine ⟨caps, CapabilitySet.ext_declares fun c => ?_, Or.inr hcaps⟩
        rw [Bool.eq_iff_iff, hdeclares, CapabilitySet.declares_ofList, mem_iff_tags hcaps]
  case leading =>
    intro w rest hw hs
    refine noListing_of_gaps hw ?_ (by simp [hs])
    rw [hs, List.splitOn_append_cons_self_of_not_mem hw.comma_not_mem]
    exact List.mem_cons_self
  case trailing =>
    intro rest w hw hs
    refine noListing_of_gaps hw ?_ (by simp [hs])
    rw [hs, List.splitOn_append_cons_self, List.splitOn_eq_singleton hw.comma_not_mem]
    exact List.mem_append_right _ List.mem_cons_self
  case doubled =>
    intro before w after hw hs
    refine noListing_of_gaps hw ?_ (by simp [hs])
    rw [hs, List.splitOn_append_cons_self,
      List.splitOn_append_cons_self_of_not_mem hw.comma_not_mem]
    exact List.mem_append_right _ List.mem_cons_self
  case two_tags => exact fun piece hpiece c d w hw => noListing_of_two_tags hpiece c d hw
  case lower_case => exact fun ch hch => noListing_of_lower hch
  case joined =>
    intro caps pieces w set hdeclares hw hpieces hs
    refine (hok set).mpr ⟨caps, CapabilitySet.ext_declares fun c => ?_, ?_⟩
    · rw [Bool.eq_iff_iff, hdeclares, CapabilitySet.declares_ofList]
    · rw [hs]
      exact forall₂_tags_of_joined caps pieces w hw hpieces

/-- A listing with gaps and a repetition is read as the set, and one with a comma too many, or
    one too few, is refused. -/
theorem spaced_listing_read :
    CapabilitySet.ofText " SCAN,\tPROJECT , SCAN" = .ok (CapabilitySet.ofList [.project, .scan]) ∧
      NoListing "SCAN, " ∧ NoListing "SCAN PROJECT" := by
  refine ⟨?_, ?_, ?_⟩
  · refine (listing_read _).joined [.scan, .project, .scan]
      [" SCAN".toList, "\tPROJECT ".toList, " SCAN".toList] [] _ (fun c => ?_) nofun ?_ (by decide)
    · rw [CapabilitySet.declares_ofList]
      simp [or_left_comm]
    · exact .cons ⟨[' '], [], by decide⟩ (.cons ⟨['\t'], [' '], by decide⟩
        (.cons ⟨[' '], [], by decide⟩ .nil))
  · exact (listing_read _).trailing "SCAN".toList [' '] (by decide) (by decide)
  · exact (listing_read _).two_tags "SCAN PROJECT".toList (by decide) .scan .project [' ']
      (by decide) ⟨[], [], by decide⟩

end Federation
