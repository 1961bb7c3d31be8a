import Federation.Json
import Federation.Decimal.Shortest

/-!
# Writing JSON

Values as compact text, without gaps. Control characters and the three line
separators outside ASCII are escaped, so a value is always one line. Numbers that
JSON cannot write, NaN and the infinities, become `null`.

## Main definitions

* `Json.text`: The text of a value.
-/

namespace Federation.Json

/-- A hexadecimal escape of four digits. -/
def unicodeEscape (c : Char) : String :=
  let ds := Nat.toDigits 16 c.toNat
  "\\u" ++ String.ofList (List.replicate (4 - ds.length) '0' ++ ds)

/-- One character of a string, escaped where it has to be. -/
def characterText (c : Char) : String :=
  if c == '"' then "\\\""
  else if c == '\\' then "\\\\"
  else if c.toNat < 0x20 ∨ [0x7F, 0x85, 0x2028, 0x2029].contains c.toNat then
    unicodeEscape c
  else String.singleton c

/-- Appends a quoted string. -/
def writeString (s out : String) : String :=
  s.foldl (fun out c => out ++ characterText c) (out ++ "\"") ++ "\""

/-- The text of a floating-point number, with a point or else `null`. -/
def floatText (x : Binary64) : String :=
  if x.isFinite then
    let s := x.text
    if s.toList.contains '.' then s else s ++ ".0"
  else
    "null"

mutual

/-- Appends the text of a value. -/
def write : Json → String → String
  | .null, out => out ++ "null"
  | .bool true, out => out ++ "true"
  | .bool false, out => out ++ "false"
  | .int i, out => out ++ toString i
  | .float x, out => out ++ floatText x
  | .string s, out => writeString s out
  | .array [], out => out ++ "[]"
  | .array (item :: items), out => writeItems items (write item (out ++ "[")) ++ "]"
  | .object [], out => out ++ "\x7b\x7d"
  | .object ((name, value) :: members), out =>
    writeMembers members (write value (writeString name (out ++ "\x7b") ++ ":")) ++ "\x7d"

/-- Appends the items of an array after the first. -/
def writeItems : List Json → String → String
  | [], out => out
  | item :: items, out => writeItems items (write item (out ++ ","))

/-- Appends the members of an object after the first. -/
def writeMembers : List (String × Json) → String → String
  | [], out => out
  | (name, value) :: members, out =>
    writeMembers members (write value (writeString name (out ++ ",") ++ ":"))

end

/-- The text of a value. -/
def text (j : Json) : String := write j ""

end Federation.Json
