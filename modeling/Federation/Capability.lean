import Federation.Operator

/-!
# Capabilities

A capability is one kind of operation that a connector may declare it can
execute. The capabilities are numbered in order of declaration; the number is
both the place of a capability in every listing and its bit in a set of
capabilities. In text a capability is its tag, which is what connectors
advertise.

## Main definitions

* `Capability`: The twenty-six operations, and `Capability.all` in order.
* `Capability.tag`, `Capability.ofTag?`: The advertised spelling.
* `Capability.filter?`: What a predicate on a class of columns needs.

## Theorems

* `Capability.mem_all`: The listing is complete.
* `Capability.getElem?_all_bit`, `Capability.bit_getElem_all`: Bits are places in
  the listing.
* `Capability.ofTag?_tag`, `Capability.tag_of_ofTag?`: Tags and capabilities
  stand for each other.
-/

namespace Federation

/-- One kind of operation a connector may declare. -/
inductive Capability where
  | scan
  | project
  | selectWindow
  | selectInnerJoin
  | selectInnerJoinPartialResults
  | filterPkEq
  | filterPkGt
  | filterPkLt
  | filterPkGe
  | filterPkLe
  | filterPkDistinct
  | filterIndexedEq
  | filterIndexedGt
  | filterIndexedLt
  | filterIndexedGe
  | filterIndexedLe
  | filterIndexedDistinct
  | filterIndexedMatch
  | filterNonIndexedEq
  | filterNonIndexedGt
  | filterNonIndexedLt
  | filterNonIndexedGe
  | filterNonIndexedLe
  | filterNonIndexedDistinct
  | insert
  | insertIfNotExists
deriving DecidableEq

/-- How a filtered column is stored, which decides the capability its filter
    needs. -/
inductive ColumnClass where
  | partitionKey
  | indexed
  | nonIndexed
deriving DecidableEq

/-- The name of a column class in messages. -/
def ColumnClass.label : ColumnClass → String
  | .partitionKey => "PartitionKey"
  | .indexed => "Indexed"
  | .nonIndexed => "NonIndexed"

namespace Capability

instance : Inhabited Capability := ⟨.scan⟩

/-- Every capability, in order of declaration. -/
def all : List Capability :=
  [.scan, .project, .selectWindow, .selectInnerJoin, .selectInnerJoinPartialResults,
    .filterPkEq, .filterPkGt, .filterPkLt, .filterPkGe, .filterPkLe, .filterPkDistinct,
    .filterIndexedEq, .filterIndexedGt, .filterIndexedLt, .filterIndexedGe, .filterIndexedLe,
    .filterIndexedDistinct, .filterIndexedMatch,
    .filterNonIndexedEq, .filterNonIndexedGt, .filterNonIndexedLt, .filterNonIndexedGe,
    .filterNonIndexedLe, .filterNonIndexedDistinct,
    .insert, .insertIfNotExists]

/-- The number of capabilities. -/
abbrev count : Nat := 26

/-- The number of a capability, in order of declaration. -/
def bit (c : Capability) : Fin count := ⟨c.ctorIdx, by cases c <;> decide⟩

instance : Ord Capability := ⟨compareOn bit⟩

/-- No capability is missing from the listing. -/
theorem mem_all (c : Capability) : c ∈ all := by cases c <;> decide

/-- Each capability is found in the listing at its own bit. -/
theorem getElem?_all_bit (c : Capability) : all[(c.bit : Nat)]? = some c := by cases c <;> rfl

/-- What is found at a place in the listing has that place as its bit. -/
theorem bit_getElem_all (i : Nat) (h : i < all.length) : (all[i].bit : Nat) = i :=
  (by decide : ∀ n : Fin all.length, ((all.get n).bit : Nat) = n) ⟨i, h⟩

/-- No two capabilities share a bit. -/
theorem bit_injective {c d : Capability} (h : c.bit = d.bit) : c = d :=
  Option.some.inj ((getElem?_all_bit c).symm.trans (h ▸ getElem?_all_bit d))

instance : Std.TransOrd Capability :=
  inferInstanceAs (Std.TransCmp (compareOn bit))

instance : Std.LawfulEqOrd Capability where
  eq_of_compare {_ _} h := bit_injective (Std.LawfulEqOrd.eq_of_compare (α := Fin count) h)

/-- The ways to execute a join, least demanding first. -/
def joinVariants : List Capability := [.selectInnerJoin, .selectInnerJoinPartialResults]

/-- The spelling under which connectors advertise a capability. -/
def tag : Capability → String
  | .scan => "SCAN"
  | .project => "PROJECT"
  | .selectWindow => "SELECT_WINDOW"
  | .selectInnerJoin => "SELECT_INNER_JOIN"
  | .selectInnerJoinPartialResults => "SELECT_INNER_JOIN_PARTIALS_RESULTS"
  | .filterPkEq => "FILTER_PK_EQ"
  | .filterPkGt => "FILTER_PK_GT"
  | .filterPkLt => "FILTER_PK_LT"
  | .filterPkGe => "FILTER_PK_GET"
  | .filterPkLe => "FILTER_PK_LET"
  | .filterPkDistinct => "FILTER_PK_DISTINCT"
  | .filterIndexedEq => "FILTER_INDEXED_EQ"
  | .filterIndexedGt => "FILTER_INDEXED_GT"
  | .filterIndexedLt => "FILTER_INDEXED_LT"
  | .filterIndexedGe => "FILTER_INDEXED_GET"
  | .filterIndexedLe => "FILTER_INDEXED_LET"
  | .filterIndexedDistinct => "FILTER_INDEXED_DISTINCT"
  | .filterIndexedMatch => "FILTER_INDEXED_MATCH"
  | .filterNonIndexedEq => "FILTER_NON_INDEXED_EQ"
  | .filterNonIndexedGt => "FILTER_NON_INDEXED_GT"
  | .filterNonIndexedLt => "FILTER_NON_INDEXED_LT"
  | .filterNonIndexedGe => "FILTER_NON_INDEXED_GET"
  | .filterNonIndexedLe => "FILTER_NON_INDEXED_LET"
  | .filterNonIndexedDistinct => "FILTER_NON_INDEXED_DISTINCT"
  | .insert => "INSERT"
  | .insertIfNotExists => "INSERT_IF_NOT_EXISTS"

/-- The capability of a tag, which must be spelled exactly. -/
def ofTag? (s : String) : Option Capability :=
  all.find? fun c => c.tag == s

/-- A tag stands for at most one capability. -/
theorem tag_of_ofTag? {s : String} {c : Capability} (h : ofTag? s = some c) : c.tag = s := by
  simpa using List.find?_some h

/-- Every capability is advertised by its tag. -/
theorem ofTag?_tag (c : Capability) : ofTag? c.tag = some c := by
  cases c <;> decide

/-- Whether a capability executes filters. Filters are declared side by side. -/
def isFilter (c : Capability) : Bool :=
  decide (filterPkEq.bit ≤ c.bit) && decide (c.bit ≤ filterNonIndexedDistinct.bit)

/-- Whether a capability executes joins. -/
def isJoin (c : Capability) : Bool := joinVariants.contains c

/-- What a predicate on a column of a class needs. Only an index can match. -/
def filter? : ColumnClass → Operator → Option Capability
  | .partitionKey, .eq => some .filterPkEq
  | .partitionKey, .gt => some .filterPkGt
  | .partitionKey, .lt => some .filterPkLt
  | .partitionKey, .ge => some .filterPkGe
  | .partitionKey, .le => some .filterPkLe
  | .partitionKey, .distinct => some .filterPkDistinct
  | .partitionKey, .matching => none
  | .indexed, .eq => some .filterIndexedEq
  | .indexed, .gt => some .filterIndexedGt
  | .indexed, .lt => some .filterIndexedLt
  | .indexed, .ge => some .filterIndexedGe
  | .indexed, .le => some .filterIndexedLe
  | .indexed, .distinct => some .filterIndexedDistinct
  | .indexed, .matching => some .filterIndexedMatch
  | .nonIndexed, .eq => some .filterNonIndexedEq
  | .nonIndexed, .gt => some .filterNonIndexedGt
  | .nonIndexed, .lt => some .filterNonIndexedLt
  | .nonIndexed, .ge => some .filterNonIndexedGe
  | .nonIndexed, .le => some .filterNonIndexedLe
  | .nonIndexed, .distinct => some .filterNonIndexedDistinct
  | .nonIndexed, .matching => none

/-- What a predicate needs is always a filter capability. -/
theorem isFilter_of_filter? {k : ColumnClass} {op : Operator} {c : Capability}
    (h : filter? k op = some c) : c.isFilter = true := by
  cases k <;> cases op <;> simp only [filter?, Option.some.injEq, reduceCtorEq] at h <;>
    subst h <;> decide

end Capability

end Federation
