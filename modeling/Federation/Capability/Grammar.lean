import Federation.Capability.Set
import Federation.Name.Grammar

/-!
# Written Capabilities

Capabilities as connectors advertise them: tags separated by commas, gaps
allowed around every tag. A list without tags is the empty set; a comma with
nothing before or after it is refused. A refusal quotes the first piece between
commas that is no tag, which is more use to the reader than the whole list.

## Main definitions

* `Capability.ofText`, `CapabilitySet.ofText`: What a text advertises.
-/

namespace Federation

namespace Text

/-- A leading identifier that is a tag. -/
def capability? : Reader Capability := fun cs => do
  let (word, cs) ← identifier? cs
  let c ← Capability.ofTag? word
  return (c, cs)

/-- A comma, gaps around it, and a capability. -/
def nextCapability? : Reader Capability := fun cs => do
  let (_, cs) ← mark? ',' (cs.dropWhile isGap)
  capability? (cs.dropWhile isGap)

/-- As many further capabilities as there are, at most so many. A comma that no
    capability follows is left unread. -/
def furtherCapabilities : Nat → List Char → List Capability × List Char
  | 0, cs => ([], cs)
  | most + 1, cs =>
    match nextCapability? cs with
    | none => ([], cs)
    | some (c, rest) =>
      let (more, rest) := furtherCapabilities most rest
      (c :: more, rest)

/-- A leading list of capabilities, which may be empty. -/
def capabilities? : Reader (List Capability) := fun cs =>
  match capability? cs with
  | none => some ([], cs)
  | some (c, rest) =>
    let (more, rest) := furtherCapabilities rest.length rest
    some (c :: more, rest)

/-- The first piece between commas that is no tag, or else the whole text. -/
def offendingTag (s : String) : String :=
  let tags := (pieces ',' s.toList).map fun piece => trimBlank (String.ofList piece)
  (tags.find? fun tag => (Capability.ofTag? tag).isNone).getD s

end Text

/-- The capability that a text advertises. -/
def Capability.ofText (s : String) : Except NameError Capability :=
  match Text.whole? Text.capability? s with
  | some c => .ok c
  | none => .error (.invalidCapability (Text.trimBlank s))

/-- The capabilities that a text advertises. -/
def CapabilitySet.ofText (s : String) : Except NameError CapabilitySet :=
  match Text.whole? Text.capabilities? s with
  | some cs => .ok (CapabilitySet.ofList cs)
  | none => .error (.invalidCapability (Text.offendingTag s))

end Federation
