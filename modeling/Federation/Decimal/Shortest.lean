import Federation.Decimal.Binary64

/-!
# Shortest Decimals

A floating-point number is written with the fewest digits that read back to it.
The numbers that round to a given one form an interval, which reaches halfway to
both neighbours and holds its ends when the mantissa is even. On the grid of
decimals with a given last place the only candidates are the two neighbours of
the number itself; the coarsest grid with a candidate in the interval wins. Of
two candidates the nearer is taken, and of two equally near the larger.

The arithmetic is exact: an interval and a grid are compared over the naturals,
in a unit that divides both.

## Main definitions

* `Binary64.onGrid?`: The best decimal of one grid.
* `Binary64.shortest`: The digits and the place of the last one.
* `Binary64.text`: The positional form, which never has an exponent.
-/

namespace Federation.Binary64

/-- Whether the neighbour below is only half as far away as the one above. -/
def isNarrowBelow (x : Binary64) : Bool := x.fraction == 0 && 1 < x.exponentField

/-- The multiple of `10 ^ place` that reads back to the magnitude of the number
    and is nearest to it, if there is one. Everything is counted in a unit that
    divides both the grid and the ends of the interval. -/
def onGrid? (x : Binary64) (place : Int) : Option Nat :=
  let unit := power 2 (x.exponent - 2) * power 10 (-place)
  let step := power 10 place * power 2 (2 - x.exponent)
  let value := 4 * x.mantissa * unit
  let low := (4 * x.mantissa - if x.isNarrowBelow then 1 else 2) * unit
  let high := (4 * x.mantissa + 2) * unit
  let readsBack (d : Nat) : Bool :=
    if x.mantissa % 2 = 0 then
      decide (low ≤ d * step ∧ d * step ≤ high)
    else
      decide (low < d * step ∧ d * step < high)
  let below := value / step
  match readsBack below, readsBack (below + 1) with
  | true, true => some (if 2 * value < (2 * below + 1) * step then below else below + 1)
  | true, false => some below
  | false, true => some (below + 1)
  | false, false => none

/-- The magnitude of a finite number as an integer times a power of ten. -/
def exact (x : Binary64) : Nat × Int :=
  if 0 ≤ x.exponent then
    (x.mantissa * power 2 x.exponent, 0)
  else
    (x.mantissa * power 5 (-x.exponent), x.exponent)

/-- How many decimal digits a natural has. -/
def digitCount (n : Nat) : Nat := (Nat.toDigits 10 n).length

/-- The fewest digits that read back to the magnitude of a finite number, and
    the place of the last one. Seventeen digits always suffice. -/
def shortest (x : Binary64) : Nat × Int :=
  let (digits, place) := x.exact
  let top := place + digitCount digits
  let attempts := (List.range 17).map fun n => top - (n + 1 : Nat)
  (attempts.findSome? fun p => (x.onGrid? p).map fun d => (d, p)).getD (digits, place)

/-- A decimal in positional form, without zeros at the end of its fraction. -/
def positional (digits : Nat) (place : Int) : List Char :=
  let ds := Nat.toDigits 10 digits
  if 0 ≤ place then
    if digits = 0 then ['0'] else ds ++ List.replicate place.toNat '0'
  else
    let places := (-place).toNat
    let padded := List.replicate (places + 1 - ds.length) '0' ++ ds
    let whole := padded.take (padded.length - places)
    let fraction := padded.drop (padded.length - places)
    match (fraction.reverse.dropWhile (· == '0')).reverse with
    | [] => whole
    | kept => whole ++ '.' :: kept

/-- The text of a number: the shortest digits that read back, never an exponent,
    no point after an integer, and zero keeps its sign. -/
def text (x : Binary64) : String :=
  let sign := if x.isNegative then "-" else ""
  if x.isNaN then
    "NaN"
  else if !x.isFinite then
    sign ++ "inf"
  else
    let (digits, place) := if x.mantissa = 0 then (0, 0) else x.shortest
    sign ++ String.ofList (positional digits place)

end Federation.Binary64
