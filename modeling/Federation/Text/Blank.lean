/-!
# White Space

Two classes of characters separate words. *Gaps* are the four characters that the
written forms of names and capabilities allow around a word. *Blanks* are the
white space of Unicode; they are dropped from settings and from the text that a
message quotes. Every gap is a blank, so trimming blanks also trims gaps.

## Main definitions

* `isGap`, `isBlank`: The two classes.
* `trimBlank`: Text without the blanks at its two ends.
* `pieces`: Text cut at a separating character.

## Theorems

* `isBlank_of_isGap`: Every gap is a blank.
-/

namespace Federation.Text

/-- Space, tab, carriage return and line feed. -/
def isGap (c : Char) : Bool :=
  c == ' ' || c == '\t' || c == '\r' || c == '\n'

/-- First and last code points of the ranges of the `White_Space` property. -/
def blankRanges : List (Nat × Nat) :=
  [(0x09, 0x0D), (0x20, 0x20), (0x85, 0x85), (0xA0, 0xA0), (0x1680, 0x1680), (0x2000, 0x200A),
    (0x2028, 0x2029), (0x202F, 0x202F), (0x205F, 0x205F), (0x3000, 0x3000)]

/-- White space in the sense of Unicode. -/
def isBlank (c : Char) : Bool :=
  blankRanges.any fun r => r.1 ≤ c.toNat && c.toNat ≤ r.2

/-- Every gap is a blank. -/
theorem isBlank_of_isGap {c : Char} (h : isGap c = true) : isBlank c = true := by
  simp only [isGap, Bool.or_eq_true, beq_iff_eq] at h
  rcases h with ((rfl | rfl) | rfl) | rfl <;> decide

/-- Drops the members of a class from both ends. -/
def trimEnds (p : Char → Bool) (cs : List Char) : List Char :=
  ((cs.dropWhile p).reverse.dropWhile p).reverse

/-- Text without the blanks at its two ends. -/
def trimBlank (s : String) : String :=
  String.ofList (trimEnds isBlank s.toList)

/-- Text cut at every occurrence of a character. There is one piece more than
    there are cuts, so text without the character is its only piece. -/
def pieces (separator : Char) : List Char → List (List Char)
  | [] => [[]]
  | c :: rest =>
    if c = separator then
      [] :: pieces separator rest
    else
      match pieces separator rest with
      | [] => [[c]]
      | piece :: more => (c :: piece) :: more

end Federation.Text
