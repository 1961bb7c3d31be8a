import Federation.Json
import Federation.Text.Word

/-!
# Reading JSON

A total reader of JSON text. Objects keep one member of a name, the last one
written; containers may be nested as deep as the text is long; an integer that 64
bits cannot hold becomes the nearest floating-point number, as does a negative
zero, and a number too large for that is refused.

## Main definitions

* `Json.ofText?`: The value that a whole text writes.
-/

namespace Federation.Json

open Text (decimalValue isGap Reader)

/-- The value of a hexadecimal digit. -/
def hexDigit? (c : Char) : Option Nat :=
  if c.isDigit then some (c.toNat - '0'.toNat)
  else if 'a' ≤ c ∧ c ≤ 'f' then some (c.toNat - 'a'.toNat + 10)
  else if 'A' ≤ c ∧ c ≤ 'F' then some (c.toNat - 'A'.toNat + 10)
  else none

/-- The value of a run of hexadecimal digits, most significant first. -/
def hexValue? (cs : List Char) : Option Nat :=
  cs.foldlM (fun n c => (hexDigit? c).map (16 * n + ·)) 0

/-- The character that a one-letter escape stands for. -/
def escaped? : Char → Option Char
  | '"' => some '"'
  | '\\' => some '\\'
  | '/' => some '/'
  | 'b' => some '\x08'
  | 'f' => some '\x0c'
  | 'n' => some '\n'
  | 'r' => some '\r'
  | 't' => some '\t'
  | _ => none

/-- The rest of a string after its opening quote, given what is read already in
    reverse. A code point above the basic plane is escaped as two halves, and a
    half without the other is refused. -/
def readString (done : List Char) : Reader String
  | '"' :: rest => some (String.ofList done.reverse, rest)
  | '\\' :: 'u' :: a :: b :: c :: d :: rest =>
    match hexValue? [a, b, c, d] with
    | none => none
    | some high =>
      if 0xD800 ≤ high ∧ high < 0xDC00 then
        match rest with
        | '\\' :: 'u' :: e :: f :: g :: h :: rest =>
          match hexValue? [e, f, g, h] with
          | none => none
          | some low =>
            if 0xDC00 ≤ low ∧ low < 0xE000 then
              readString (Char.ofNat (0x10000 + (high - 0xD800) * 0x400 + (low - 0xDC00)) :: done)
                rest
            else none
        | _ => none
      else if 0xDC00 ≤ high ∧ high < 0xE000 then none
      else readString (Char.ofNat high :: done) rest
  | '\\' :: e :: rest =>
    match escaped? e with
    | none => none
    | some c => readString (c :: done) rest
  | c :: rest => if c.toNat < 0x20 then none else readString (c :: done) rest
  | [] => none

/-- A run of decimal digits that is not empty. -/
def digits? : Reader (List Char) := fun cs =>
  match cs.takeWhile Char.isDigit with
  | [] => none
  | ds => some (ds, cs.dropWhile Char.isDigit)

/-- The digits before the point: no zero stands in front of another digit. -/
def wholeDigits? : Reader (List Char) := fun cs =>
  match digits? cs with
  | some ('0' :: _ :: _, _) => none
  | other => other

/-- The digits after the point; without a point there are none. -/
def fractionDigits? : Reader (Option (List Char))
  | '.' :: cs => (digits? cs).map fun (ds, rest) => (some ds, rest)
  | cs => some (none, cs)

/-- The power of ten after its mark, if there is one. -/
def power? : Reader (Option Int) := fun cs =>
  match cs with
  | c :: rest =>
    if c == 'e' || c == 'E' then
      let (negative, rest) :=
        match rest with
        | '+' :: rest => (false, rest)
        | '-' :: rest => (true, rest)
        | rest => (false, rest)
      (digits? rest).map fun (ds, rest) =>
        (some (if negative then -(decimalValue ds : Int) else decimalValue ds), rest)
    else
      some (none, cs)
  | [] => some (none, [])

/-- The value of a literal: an integer if it has neither point nor power and
    fits, else the nearest floating-point number. -/
def numberValue (negative : Bool) (whole : List Char) (fraction : Option (List Char))
    (power : Option Int) : Option Json :=
  let digits := fraction.getD []
  let asFloat :=
    (Binary64.ofDecimal negative (decimalValue (whole ++ digits))
      (power.getD 0 - digits.length)).map float
  if fraction.isSome || power.isSome then
    asFloat
  else
    let n := decimalValue whole
    if negative then
      if 0 < n ∧ n ≤ UInt64.size / 2 then some (int (-n)) else asFloat
    else
      if n < UInt64.size then some (int n) else asFloat

/-- A number. -/
def number? : Reader Json := fun cs => do
  let (negative, cs) :=
    match cs with
    | '-' :: rest => (true, rest)
    | cs => (false, cs)
  let (whole, cs) ← wholeDigits? cs
  let (fraction, cs) ← fractionDigits? cs
  let (power, cs) ← power? cs
  let value ← numberValue negative whole fraction power
  return (value, cs)

/-- The members with one more in front, unless a later one has its name. -/
def addMember (name : String) (value : Json) (members : List (String × Json)) :
    List (String × Json) :=
  if members.any fun m => m.1 == name then members else (name, value) :: members

mutual

/-- A value, reading at most so many parts. -/
def readValue : Nat → Reader Json
  | 0, _ => none
  | parts + 1, cs =>
    match cs.dropWhile isGap with
    | 'n' :: 'u' :: 'l' :: 'l' :: rest => some (null, rest)
    | 't' :: 'r' :: 'u' :: 'e' :: rest => some (bool true, rest)
    | 'f' :: 'a' :: 'l' :: 's' :: 'e' :: rest => some (bool false, rest)
    | '"' :: rest => (readString [] rest).map fun (s, rest) => (string s, rest)
    | '[' :: rest =>
      match rest.dropWhile isGap with
      | ']' :: rest => some (array [], rest)
      | rest => (readItems parts rest).map fun (items, rest) => (array items, rest)
    | '{' :: rest =>
      match rest.dropWhile isGap with
      | '}' :: rest => some (object [], rest)
      | rest => (readMembers parts rest).map fun (members, rest) => (object members, rest)
    | cs => number? cs

/-- The items of an array and its closing bracket. -/
def readItems : Nat → Reader (List Json)
  | 0, _ => none
  | parts + 1, cs =>
    match readValue parts cs with
    | none => none
    | some (item, rest) =>
      match rest.dropWhile isGap with
      | ']' :: rest => some ([item], rest)
      | ',' :: rest => (readItems parts rest).map fun (items, rest) => (item :: items, rest)
      | _ => none

/-- The members of an object and its closing brace. -/
def readMembers : Nat → Reader (List (String × Json))
  | 0, _ => none
  | parts + 1, cs =>
    match cs.dropWhile isGap with
    | '"' :: rest =>
      match readString [] rest with
      | none => none
      | some (name, rest) =>
        match rest.dropWhile isGap with
        | ':' :: rest =>
          match readValue parts rest with
          | none => none
          | some (value, rest) =>
            match rest.dropWhile isGap with
            | '}' :: rest => some ([(name, value)], rest)
            | ',' :: rest =>
              (readMembers parts rest).map fun (members, rest) =>
                (addMember name value members, rest)
            | _ => none
        | _ => none
    | _ => none

end

/-- The value that a whole text writes. Every part of a value but the last is
    followed by a character of its own, so twice the length bounds the parts. -/
def ofText? (s : String) : Option Json :=
  let cs := s.toList
  match readValue (2 * cs.length + 2) cs with
  | some (value, rest) => if rest.all isGap then some value else none
  | none => none

end Federation.Json
