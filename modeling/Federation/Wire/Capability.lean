import Federation.Capability.Set
import Federation.Wire.Decoder

/-!
# Written Capabilities

Capabilities, operators and column classes are written by name. A set of
capabilities is written as a list in order of declaration, and read from a list
in any order, repetitions allowed.
-/

namespace Federation

namespace Operator

/-- Every operator. -/
def all : List Operator := [.eq, .distinct, .gt, .lt, .ge, .le, .matching]

/-- The name of an operator in written values. -/
def label : Operator → String
  | .eq => "Eq"
  | .distinct => "Distinct"
  | .gt => "Gt"
  | .lt => "Lt"
  | .ge => "Ge"
  | .le => "Le"
  | .matching => "Match"

/-- The name of an operator. -/
def toJson (o : Operator) : Json := .string o.label

/-- The operator of a name. -/
def ofJson : Decoder Operator := Decoder.enumeration all label

end Operator

namespace ColumnClass

/-- Every column class. -/
def all : List ColumnClass := [.partitionKey, .indexed, .nonIndexed]

/-- The column class of a name. -/
def ofJson : Decoder ColumnClass := Decoder.enumeration all label

end ColumnClass

namespace Capability

/-- The name of a capability in written values, which is not its tag. -/
def label : Capability → String
  | .scan => "Scan"
  | .project => "Project"
  | .selectWindow => "SelectWindow"
  | .selectInnerJoin => "SelectInnerJoin"
  | .selectInnerJoinPartialResults => "SelectInnerJoinPartialResults"
  | .filterPkEq => "FilterPkEq"
  | .filterPkGt => "FilterPkGt"
  | .filterPkLt => "FilterPkLt"
  | .filterPkGe => "FilterPkGe"
  | .filterPkLe => "FilterPkLe"
  | .filterPkDistinct => "FilterPkDistinct"
  | .filterIndexedEq => "FilterIndexedEq"
  | .filterIndexedGt => "FilterIndexedGt"
  | .filterIndexedLt => "FilterIndexedLt"
  | .filterIndexedGe => "FilterIndexedGe"
  | .filterIndexedLe => "FilterIndexedLe"
  | .filterIndexedDistinct => "FilterIndexedDistinct"
  | .filterIndexedMatch => "FilterIndexedMatch"
  | .filterNonIndexedEq => "FilterNonIndexedEq"
  | .filterNonIndexedGt => "FilterNonIndexedGt"
  | .filterNonIndexedLt => "FilterNonIndexedLt"
  | .filterNonIndexedGe => "FilterNonIndexedGe"
  | .filterNonIndexedLe => "FilterNonIndexedLe"
  | .filterNonIndexedDistinct => "FilterNonIndexedDistinct"
  | .insert => "Insert"
  | .insertIfNotExists => "InsertIfNotExists"

/-- The name of a capability. -/
def toJson (c : Capability) : Json := .string c.label

/-- The capability of a name. -/
def ofJson : Decoder Capability := Decoder.enumeration all label

end Capability

namespace CapabilitySet

/-- The names of what is declared, in braces. -/
def labelText (s : CapabilitySet) : String :=
  "\x7b" ++ commaList Capability.label s.toList ++ "\x7d"

/-- What is declared, in order of declaration. -/
def toJson (s : CapabilitySet) : Json := Json.list Capability.toJson s.toList

/-- The set of a list in any order, repetitions allowed. -/
def ofJson : Decoder CapabilitySet := fun j => (Decoder.list Capability.ofJson j).map ofList

end CapabilitySet

end Federation
