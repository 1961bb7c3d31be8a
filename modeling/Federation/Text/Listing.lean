/-!
# Listings

Texts written side by side with a separator between two of them, the one layout
that every list in a message or an explanation has.
-/

namespace Federation

/-- The texts of the members, separated. -/
def listing {α : Type} (separator : String) (text : α → String) (l : List α) : String :=
  separator.intercalate (l.map text)

/-- The texts of the members, separated by commas. -/
def commaList {α : Type} (text : α → String) (l : List α) : String :=
  listing ", " text l

end Federation
