/-!
# Binary Floating Point

A decimal literal of a statement is kept as the 64 bits of the nearest binary
floating-point number, so that carrying it through a plan changes nothing. The
value of a finite number is `mantissa * 2 ^ exponent`, a sign aside; NaN and the
infinities are recognised by their bits. No operation here rounds but `nearest`,
which takes a ratio to the nearest number, a tie to the one with the even
mantissa.

## Main definitions

* `Binary64`: The bits, with `isFinite`, `mantissa` and `exponent`.
* `Binary64.nearest`: The number nearest to a ratio of naturals.
* `Binary64.ofInt`, `Binary64.ofDecimal`: The numbers nearest to literals.
-/

namespace Federation

/-- A binary floating-point number, as its bits. -/
structure Binary64 where
  bits : UInt64
deriving DecidableEq

namespace Binary64

instance : Inhabited Binary64 := ⟨⟨0⟩⟩

/-- How many fractions there are, which is also the weight of the leading one
    that is not stored: two to the power of 52. -/
def fractionCount : Nat := 0x10000000000000

/-- How many exponent fields there are: two to the power of 11. -/
def fieldCount : Nat := 0x800

/-- Whether the sign bit is set. -/
def isNegative (x : Binary64) : Bool := x.bits.toNat / fractionCount / fieldCount == 1

/-- The eleven bits after the sign. -/
def exponentField (x : Binary64) : Nat := x.bits.toNat / fractionCount % fieldCount

/-- The fifty-two bits after those. -/
def fraction (x : Binary64) : Nat := x.bits.toNat % fractionCount

/-- Neither NaN nor an infinity. -/
def isFinite (x : Binary64) : Bool := x.exponentField != 2047

/-- The one kind of value that is neither finite nor an infinity. -/
def isNaN (x : Binary64) : Bool := x.exponentField == 2047 && x.fraction != 0

/-- The integer part of a finite magnitude in units of its last place. The
    leading one is not stored unless the exponent field is zero. -/
def mantissa (x : Binary64) : Nat :=
  if x.exponentField = 0 then x.fraction else fractionCount + x.fraction

/-- The binary logarithm of the unit of the last place. -/
def exponent (x : Binary64) : Int :=
  if x.exponentField = 0 then -1074 else x.exponentField - 1075

/-- A quotient to the nearest natural, a tie to the even one. -/
def roundDiv (num den : Nat) : Nat :=
  let q := num / den
  match compare (2 * (num % den)) den with
  | .lt => q
  | .gt => q + 1
  | .eq => q + q % 2

/-- A base to an exponent, and one if the exponent is negative: with its negation
    beside it, a ratio of naturals has any power of the base. -/
def power (base : Nat) (exponent : Int) : Nat := Nat.pow base exponent.toNat

/-- The number of a sign and the fields after it, which may carry into one
    another when rounding gains a digit. -/
def ofFields (negative : Bool) (exponentField fraction : Nat) : Binary64 :=
  let magnitude := exponentField * fractionCount + fraction
  ⟨UInt64.ofNat (if negative then fieldCount * fractionCount + magnitude else magnitude)⟩

/-- The number nearest to `num / den`, a tie to the even mantissa; nothing when
    the ratio is too large. -/
def nearest (negative : Bool) (num den : Nat) : Option Binary64 :=
  if num = 0 then
    some (ofFields negative 0 0)
  else
    -- The unit of the last place if the mantissa is to have 53 digits, or the least unit.
    let guess : Int := (num.log2 : Int) - den.log2 - 53
    let fits := num * power 2 (-guess) < 2 * fractionCount * (den * power 2 guess)
    let unit := max (-1074) (if fits then guess else guess + 1)
    let m := roundDiv (num * power 2 (-unit)) (den * power 2 unit)
    if m < fractionCount then
      some (ofFields negative 0 m)
    else
      let x := ofFields negative (unit + 1075).toNat (m - fractionCount)
      -- Too large a ratio shows in the exponent field, rounding included.
      if (unit + 1075).toNat < 2047 && x.isFinite then some x else none

/-- The number nearest to an integer that one of 64 bits can hold. -/
def ofInt (i : Int) : Binary64 := (nearest (i < 0) i.natAbs 1).getD default

/-- The number nearest to `digits * 10 ^ exponent`; nothing when that is too
    large. Exponents far outside the range are decided without a power. -/
def ofDecimal (negative : Bool) (digits : Nat) (exponent : Int) : Option Binary64 :=
  if digits = 0 ∨ exponent + digits.log2 < -400 then
    nearest negative 0 1
  else if 400 < exponent then
    none
  else
    nearest negative (digits * power 10 exponent) (power 10 (-exponent))

end Binary64

end Federation
