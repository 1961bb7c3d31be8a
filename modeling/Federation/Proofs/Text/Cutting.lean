import Federation.Text.Blank
import Mathlib.Data.List.TakeWhile

/-!
# Trimming and Cutting

What is left of a text that is trimmed neither begins nor ends with what was taken off, and
this tells it from all other parts of the text. Pieces are what a text was joined from, so a
reader that goes through the text from the left meets them one after the other. These are the
two facts by which what a reader accepts is compared with what trimming and cutting find.

## Main definitions

* `Tight`: Text that has nothing to take off at its ends.

## Theorems

* `trimEnds_eq_iff`: What is left of a trimmed text.
* `pieces_eq_splitOn`: Cutting a text is splitting a list.
* `splitOn_append`: What is put before a text goes to its first piece.
* `mem_iff_mem_piece`: What the pieces are made of.
* `exists_of_splitOn_append`, `exists_of_splitOn_cons`: A text seen from its pieces.
-/

namespace Federation.Text

/-! ### Trimming -/

section Trim

variable {p : Char → Bool} {cs u w w₁ w₂ : List Char}

/-- Whether text neither begins nor ends with a member of a class. -/
structure Tight (p : Char → Bool) (u : List Char) : Prop where
  head : ∀ c, u.head? = some c → p c = false
  last : ∀ c, u.getLast? = some c → p c = false

-- A class is dropped up to the first that is not a member of it,
theorem dropWhile_append_stop (hw : ∀ c ∈ w, p c = true)
    (hu : ∀ c, u.head? = some c → p c = false) : (w ++ u).dropWhile p = u := by
  rw [List.dropWhile_append_of_pos hw]
  cases u with
  | nil => rfl
  | cons c rest => simp [hu c rfl]

-- and taken up to the same.
theorem takeWhile_append_stop (hw : ∀ c ∈ w, p c = true)
    (hu : ∀ c, u.head? = some c → p c = false) : (w ++ u).takeWhile p = w := by
  rw [List.takeWhile_append_of_pos hw]
  cases u with
  | nil => exact List.append_nil w
  | cons c rest => simp [hu c rfl]

theorem head_dropWhile {c : Char} (h : (u.dropWhile p).head? = some c) : p c = false := by
  have hnot := List.head?_dropWhile_not p u
  rw [h] at hnot
  exact hnot

/-- The class is taken off at both ends, and nothing else. -/
theorem trimEnds_append (hw₁ : ∀ c ∈ w₁, p c = true) (hw₂ : ∀ c ∈ w₂, p c = true)
    (hu : Tight p u) : trimEnds p (w₁ ++ u ++ w₂) = u := by
  have hback : (w₂.reverse ++ u.reverse).dropWhile p = u.reverse := by
    refine dropWhile_append_stop (fun c hc => hw₂ c (List.mem_reverse.mp hc)) ?_
    rw [List.head?_reverse]
    exact hu.last
  unfold trimEnds
  cases hhead : u with
  | nil =>
      have hall : (w₁ ++ [] ++ w₂).dropWhile p = [] := by
        rw [List.append_nil, List.dropWhile_append_of_pos hw₁]
        exact List.dropWhile_eq_nil_iff.mpr hw₂
      rw [hall]
      rfl
  | cons c rest =>
      have hfront : (w₁ ++ (u ++ w₂)).dropWhile p = u ++ w₂ := by
        refine dropWhile_append_stop hw₁ fun d hd => hu.head d ?_
        rw [hhead] at hd ⊢
        exact hd
      rw [← hhead, List.append_assoc, hfront, List.reverse_append, hback, List.reverse_reverse]

/-- A text is what is left of it between two runs of the class that is taken off. -/
theorem exists_trimEnds (p : Char → Bool) (cs : List Char) :
    Tight p (trimEnds p cs) ∧ ∃ w₁ w₂, (∀ c ∈ w₁, p c = true) ∧ (∀ c ∈ w₂, p c = true) ∧
      cs = w₁ ++ trimEnds p cs ++ w₂ := by
  have hback : cs.dropWhile p
      = trimEnds p cs ++ ((cs.dropWhile p).reverse.takeWhile p).reverse := by
    unfold trimEnds
    rw [← List.reverse_append, List.takeWhile_append_dropWhile, List.reverse_reverse]
  refine ⟨⟨fun c hc => ?_, fun c hc => ?_⟩, cs.takeWhile p,
    ((cs.dropWhile p).reverse.takeWhile p).reverse, fun c hc => List.mem_takeWhile_imp hc,
    fun c hc => List.mem_takeWhile_imp (List.mem_reverse.mp hc), ?_⟩
  · refine head_dropWhile (u := cs) ?_
    rw [hback, List.head?_append, hc]
    rfl
  · unfold trimEnds at hc
    rw [List.getLast?_reverse] at hc
    exact head_dropWhile hc
  · rw [List.append_assoc, ← hback, List.takeWhile_append_dropWhile]

/-- What is left of a trimmed text. -/
theorem trimEnds_eq_iff : trimEnds p cs = u ↔ Tight p u ∧
    ∃ w₁ w₂, (∀ c ∈ w₁, p c = true) ∧ (∀ c ∈ w₂, p c = true) ∧ cs = w₁ ++ u ++ w₂ := by
  constructor
  · rintro rfl
    exact exists_trimEnds p cs
  · rintro ⟨hu, w₁, w₂, hw₁, hw₂, rfl⟩
    exact trimEnds_append hw₁ hw₂ hu

end Trim

/-! ### Cutting -/

section Cut

variable {separator : Char} {cs u p : List Char} {ps : List (List Char)}

/-- Cutting a text is splitting a list. -/
theorem pieces_eq_splitOn (separator : Char) (cs : List Char) :
    pieces separator cs = cs.splitOn separator := by
  induction cs with
  | nil => rfl
  | cons c rest ih =>
      rw [pieces, List.splitOn_cons_eq_if_modifyHead, ih]
      by_cases hc : c = separator
      · rw [if_pos hc, if_pos (beq_iff_eq.mpr hc)]
      · rw [if_neg hc, if_neg (fun h => hc (beq_iff_eq.mp h))]
        cases hrest : rest.splitOn separator with
        | nil => exact absurd hrest (List.splitOn_ne_nil separator rest)
        | cons piece more => rfl

/-- What is put before a text goes to its first piece. -/
theorem splitOn_append (hu : separator ∉ u) (h : cs.splitOn separator = p :: ps) :
    (u ++ cs).splitOn separator = (u ++ p) :: ps := by
  induction u with
  | nil => exact h
  | cons c rest ih =>
      have hc : ¬(c == separator) = true := fun hc =>
        hu (beq_iff_eq.mp hc ▸ List.mem_cons_self)
      rw [List.cons_append, List.splitOn_cons_eq_if_modifyHead, if_neg hc,
        ih fun hmem => hu (List.mem_cons_of_mem c hmem)]
      rfl

-- A piece does not go on beyond the separator.
theorem not_mem_of_mem_splitOn (h : p ∈ cs.splitOn separator) : separator ∉ p := by
  induction cs generalizing p with
  | nil =>
      rw [List.splitOn_nil, List.mem_singleton] at h
      rw [h]
      exact List.not_mem_nil
  | cons c rest ih =>
      rw [List.splitOn_cons_eq_if_modifyHead] at h
      cases hrest : rest.splitOn separator with
      | nil => exact absurd hrest (List.splitOn_ne_nil separator rest)
      | cons first more =>
          rw [hrest] at h ih
          by_cases hc : (c == separator) = true
          · rw [if_pos hc] at h
            rcases List.mem_cons.mp h with rfl | h
            · exact List.not_mem_nil
            · exact ih h
          · rw [if_neg hc, List.modifyHead_cons] at h
            rcases List.mem_cons.mp h with rfl | h
            · rw [List.mem_cons]
              rintro (rfl | hmem)
              · exact hc (beq_self_eq_true _)
              · exact ih List.mem_cons_self hmem
            · exact ih (List.mem_cons_of_mem first h)

/-- The pieces are made of what a text is made of, but for the separator. -/
theorem mem_iff_mem_piece {c : Char} (hc : c ≠ separator) :
    c ∈ cs ↔ ∃ piece ∈ cs.splitOn separator, c ∈ piece := by
  induction cs with
  | nil => simp
  | cons d rest ih =>
      rw [List.splitOn_cons_eq_if_modifyHead, List.mem_cons, ih]
      cases hrest : rest.splitOn separator with
      | nil => exact absurd hrest (List.splitOn_ne_nil separator rest)
      | cons first more =>
          by_cases hd : (d == separator) = true
          · have hcd : c ≠ d := fun h => hc (h.trans (beq_iff_eq.mp hd))
            rw [if_pos hd]
            simp [hcd]
          · rw [if_neg hd]
            simp [or_assoc]

-- The pieces, joined again, are the text.
theorem eq_intercalate (h : cs.splitOn separator = ps) : cs = [separator].intercalate ps := by
  rw [← h]
  exact (List.intercalate_splitOn separator).symm

theorem not_mem_of_splitOn_eq (h : cs.splitOn separator = ps) (hp : p ∈ ps) : separator ∉ p := by
  rw [← h] at hp
  exact not_mem_of_mem_splitOn hp

-- A text that is cut nowhere is its only piece.
theorem eq_of_splitOn_singleton (h : cs.splitOn separator = [p]) : cs = p := by
  rw [eq_intercalate h]
  simp [List.intercalate]

/-- The first piece is what a text begins with. -/
theorem exists_of_splitOn_append (u : List Char) (h : cs.splitOn separator = (u ++ p) :: ps) :
    ∃ rest, cs = u ++ rest ∧ rest.splitOn separator = p :: ps := by
  have hfirst : separator ∉ p := fun hp =>
    not_mem_of_splitOn_eq h List.mem_cons_self (List.mem_append_right u hp)
  have hpieces : ∀ q ∈ p :: ps, separator ∉ q := List.forall_mem_cons.mpr
    ⟨hfirst, fun q hq => not_mem_of_splitOn_eq h (List.mem_cons_of_mem _ hq)⟩
  refine ⟨[separator].intercalate (p :: ps), ?_,
    List.splitOn_intercalate separator hpieces (List.cons_ne_nil p ps)⟩
  rw [eq_intercalate h]
  cases ps <;> simp [List.intercalate]

/-- Where a text has several pieces, the separator comes after the first. -/
theorem exists_of_splitOn_cons {q : List Char} (h : cs.splitOn separator = p :: q :: ps) :
    ∃ rest, cs = p ++ separator :: rest ∧ rest.splitOn separator = q :: ps := by
  have hpieces : ∀ piece ∈ q :: ps, separator ∉ piece := fun piece hpiece =>
    not_mem_of_splitOn_eq h (List.mem_cons_of_mem p hpiece)
  refine ⟨[separator].intercalate (q :: ps), ?_,
    List.splitOn_intercalate separator hpieces (List.cons_ne_nil q ps)⟩
  rw [eq_intercalate h]
  simp [List.intercalate]

end Cut

end Federation.Text
