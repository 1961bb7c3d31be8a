import Federation.Json
import Federation.Workflow.Error

/-!
# Decoding

The rules that every written value follows. A record is an object with its
members by name, or an array with all of them in order; members of an object that
it does not know are ignored. One of several cases is written as an object whose
only member is named for the case; a case without content may also be just its
name.

The first fault decides, which matters where a workflow is among the members: one
that is well written but malformed has a cause of its own. Members of an object
are read in the order of their names, and that one is missing is noticed after all
that are present have been read. Items of an array are read in their order, and
that there are too many is noticed at the end. Records without a workflow have no
faults to tell apart, so for them no order is kept.

## Main definitions

* `DecodeError`: Badly written, or well written but malformed.
* `Decoder`: A reader of values, and the rules as combinators.
-/

namespace Federation

/-- Why a written value is refused. -/
inductive DecodeError where
  /-- The value is not written as its type is. -/
  | malformed
  /-- The value is written well but no such workflow exists. -/
  | invalid (error : WorkflowError)
deriving DecidableEq

/-- A reader of values of a type. -/
abbrev Decoder (α : Type) := Json → Except DecodeError α

namespace Decoder

variable {α : Type}

/-- Any value, as it is. -/
def raw : Decoder Json := .ok

/-- A text. -/
def string : Decoder String
  | .string s => .ok s
  | _ => .error .malformed

/-- A truth value. -/
def bool : Decoder Bool
  | .bool b => .ok b
  | _ => .error .malformed

/-- A natural below a bound. -/
def natBelow (bound : Nat) : Decoder Nat
  | .int i => if 0 ≤ i ∧ i < bound then .ok i.toNat else .error .malformed
  | _ => .error .malformed

/-- The number of a step, of 32 bits. -/
def stepNumber : Decoder Nat := natBelow UInt32.size

/-- A count or an index, of 64 bits. -/
def count : Decoder Nat := natBelow UInt64.size

/-- A null value. -/
def null : Decoder Unit
  | .null => .ok ()
  | _ => .error .malformed

/-- A value, or null for none. -/
def option (decode : Decoder α) : Decoder (Option α)
  | .null => .ok none
  | j => (decode j).map some

/-- An array. -/
def list (decode : Decoder α) : Decoder (List α)
  | .array items => items.mapM decode
  | _ => .error .malformed

/-- Two values in an array. -/
def pair {β : Type} (first : Decoder α) (second : Decoder β) : Decoder (α × β)
  | .array [a, b] => do return (← first a, ← second b)
  | _ => .error .malformed

/-- The members of an object, by name. -/
def fields (names : List String) : Decoder (List (Option Json))
  | .object members => .ok (names.map fun name => Json.lookup name members)
  | _ => .error .malformed

/-- The members of a record without a workflow: those of an object by name, or
    those of an array by place. -/
def record (names : List String) : Decoder (List (Option Json))
  | .array items =>
    if items.length = names.length then .ok (items.map some) else .error .malformed
  | j => fields names j

/-- Nothing, for the items of an array after the last one known. -/
def noMore : List Json → Except DecodeError Unit
  | [] => .ok ()
  | _ :: _ => .error .malformed

/-- Reads a member that may be missing. -/
def ifPresent (decode : Decoder α) : Option Json → Except DecodeError (Option α)
  | none => .ok none
  | some j => (decode j).map some

/-- Insists on a member. -/
def needed : Option α → Except DecodeError α
  | some a => .ok a
  | none => .error .malformed

/-- Reads a member that must be there. -/
def required (decode : Decoder α) (member : Option Json) : Except DecodeError α := do
  needed (← ifPresent decode member)

/-- Reads a member that may be missing or null. -/
def optional (decode : Decoder α) (member : Option Json) : Except DecodeError (Option α) :=
  (ifPresent (option decode) member).map Option.join

/-- The name of a case and its content, if it has any. -/
def variant : Decoder (String × Option Json)
  | .string name => .ok (name, none)
  | .object [(name, content)] => .ok (name, some content)
  | _ => .error .malformed

/-- A case without content, from its name. -/
def enumeration (all : List α) (label : α → String) : Decoder α := fun j => do
  match ← variant j with
  | (name, none) | (name, some .null) => needed (all.find? fun a => label a == name)
  | _ => .error .malformed

end Decoder

/-- A case with content, written. -/
def Json.case (name : String) (content : Json) : Json := .object [(name, content)]

/-- A list, written. -/
def Json.list {α : Type} (toJson : α → Json) (l : List α) : Json := .array (l.map toJson)

/-- A value or null, written. -/
def Json.option {α : Type} (toJson : α → Json) : Option α → Json
  | some a => toJson a
  | none => .null

/-- A natural, written. -/
def Json.nat (n : Nat) : Json := .int n

end Federation
