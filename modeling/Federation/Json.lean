import Federation.Decimal.Binary64

/-!
# JSON Values

The values of the form in which workflows, registries and plans travel. Integers
and floating-point numbers are told apart, since a literal `2.0` is never a step
number, and the members of an object are kept in the order of writing.

## Main definitions

* `Json`: A value.
* `Json.member?`: A member of an object by name.
-/

namespace Federation

/-- A value of the travelling form. -/
inductive Json where
  | null
  | bool (b : Bool)
  | int (i : Int)
  | float (x : Binary64)
  | string (s : String)
  | array (items : List Json)
  | object (members : List (String × Json))

instance : Inhabited Json := ⟨.null⟩

/-- The member with a name, among the members of an object. -/
def Json.lookup (name : String) (members : List (String × Json)) : Option Json :=
  (members.find? fun m => m.1 == name).map (·.2)

/-- The member of an object with a name. Other values have no members. -/
def Json.member? (j : Json) (name : String) : Option Json :=
  match j with
  | .object members => lookup name members
  | _ => none

end Federation
