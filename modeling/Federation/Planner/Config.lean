import Federation.Text.Word

/-!
# Planner Settings

Two settings shape a plan: what becomes of a join that no branch connector can
merge, and how many merge stages a plan may have. They are read from a lookup of
variables, and a setting that is absent or makes no sense has its default, so a
planner can always be configured.

## Main definitions

* `MergeFallback`: Who joins when no connector can.
* `PlannerConfig`: The settings.
* `PlannerConfig.ofLookup`: The settings that variables give.
-/

namespace Federation

/-- What to do with a join that no branch connector can merge. -/
inductive MergeFallback where
  /-- Whoever dispatches the plan joins the partial results. -/
  | coordinator
  /-- Planning fails. -/
  | reject
deriving DecidableEq

/-- The text in place of the name of a fallback. -/
structure UnknownFallback where
  text : String
deriving DecidableEq

/-- The wording of the refusal. -/
def UnknownFallback.message (e : UnknownFallback) : String :=
  "unknown merge fallback '" ++ e.text ++ "'"

/-- The fallback of a name. Blanks around it and the case of ASCII letters do not
    matter; a refusal quotes the text without them. -/
def MergeFallback.ofText (s : String) : Except UnknownFallback MergeFallback :=
  let name := (Text.trimBlank s).map Char.toLower
  if name = "coordinator" then .ok .coordinator
  else if name = "reject" then .ok .reject
  else .error ⟨name⟩

/-- The settings of a planner. -/
structure PlannerConfig where
  fallback : MergeFallback
  maxStages : Nat
deriving DecidableEq

namespace PlannerConfig

/-- The settings without any variables. -/
def default : PlannerConfig := ⟨.coordinator, 16⟩

instance : Inhabited PlannerConfig := ⟨default⟩

/-- The variable that names the fallback. -/
def fallbackVariable : String := "FEDPLAN_MERGE_FALLBACK"

/-- The variable that limits the merge stages. -/
def maxStagesVariable : String := "FEDPLAN_MAX_JOIN_STAGES"

/-- A count of 64 bits in decimal digits, a plus sign allowed. -/
def count? (s : String) : Option Nat :=
  let digits :=
    match s.toList with
    | '+' :: rest => rest
    | cs => cs
  if digits.isEmpty || !digits.all Char.isDigit then
    none
  else
    let n := Text.decimalValue digits
    if n < UInt64.size then some n else none

/-- The settings that variables give. -/
def ofLookup (lookup : String → Option String) : PlannerConfig where
  fallback :=
    match (lookup fallbackVariable).map MergeFallback.ofText with
    | some (.ok fallback) => fallback
    | _ => default.fallback
  maxStages :=
    ((lookup maxStagesVariable).bind fun s => count? (Text.trimBlank s)).getD default.maxStages

end PlannerConfig

end Federation
