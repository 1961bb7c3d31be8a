import Federation.Text.Blank

/-!
# Words

The common ground of the written forms that the planner reads: identifiers of
ASCII letters, digits and underscores, single punctuation marks, and gaps around
the whole. A reader takes characters and gives a value with the characters that
are left, or nothing when the text does not begin with what it reads. Reading an
identifier is greedy, so an identifier never stops short of a letter that could
extend it.

## Main definitions

* `identifier?`: A leading identifier.
* `mark?`: One expected character.
* `whole?`: All of a text, gaps at both ends aside.
* `decimalValue`: The natural that decimal digits write.
-/

namespace Federation.Text

/-- A reader of a leading part of a text. -/
abbrev Reader (α : Type) := List Char → Option (α × List Char)

/-- A character that may begin an identifier. -/
def isWordStart (c : Char) : Bool := c.isAlpha || c == '_'

/-- A character that may continue an identifier. -/
def isWordChar (c : Char) : Bool := c.isAlphanum || c == '_'

/-- A leading identifier, as long as it can be. -/
def identifier? : Reader String
  | [] => none
  | c :: rest =>
    if isWordStart c then
      some (String.ofList (c :: rest.takeWhile isWordChar), rest.dropWhile isWordChar)
    else
      none

/-- One expected character. -/
def mark? (expected : Char) : Reader Unit
  | [] => none
  | c :: rest => if c = expected then some ((), rest) else none

/-- Reads all of a text but the gaps at its two ends. -/
def whole? {α : Type} (reader : Reader α) (s : String) : Option α :=
  match reader (s.toList.dropWhile isGap) with
  | some (a, rest) => if rest.all isGap then some a else none
  | none => none

/-- The natural that a run of decimal digits writes. -/
def decimalValue (digits : List Char) : Nat :=
  digits.foldl (fun n c => 10 * n + (c.toNat - '0'.toNat)) 0

end Federation.Text
