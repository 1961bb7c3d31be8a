import Federation.Proofs.Collect
import Federation.Wire.Registry

/-!
# Reading Back What Was Written

Every type that travels has a way of being written and a way of being read. What the
reader makes of what the writer has written is either the value itself or nothing: the
few values that are not read back are those for which the form has no writing, like a
number that is not finite. So for each type there is a condition under which a value
is read back, and that the reader undoes the writer is said together with it.

The condition of a record is that of its members, and that of a list is that of its
items. This is why the rules for reading are gone through here one by one, and the
types that are built from them need little more than the order of their members.

## Main definitions

* `ReadsBack`: A value is read back as it is if it is fit for it, and not otherwise.

## Theorems

* `ReadsBack.required_bind`: Reading a member that must be there.
* `ReadsBack.ifPresent_bind`: Reading a member that an object may lack.
* `ReadsBack.optional_bind`: Reading a member that is null for want of a value.
* `ReadsBack.list`: Reading a list.
* `readsBack_enumeration`: Reading a case without content.
* `readsBack_nat`: Reading a number.
* `Connector.readsBack`: A connector is read back, whatever it declares.
-/

namespace Federation

variable {α β : Type}

/-- A value that is fit is read back as it is, and one that is not is refused. -/
def ReadsBack (write : α → Json) (read : Decoder α) (fit : α → Prop) : Prop :=
  ∀ a b, read (write a) = .ok b ↔ fit a ∧ b = a

-- Where every value is read back, every value is fit.
theorem readsBack_of_eq {write : α → Json} {read : Decoder α}
    (h : ∀ a, read (write a) = .ok a) : ReadsBack write read fun _ => True := by
  intro a b
  rw [h a, Except.ok.injEq, true_and]
  exact eq_comm

namespace Decoder

variable (read : Decoder α) (j : Json)

theorem required_some : required read (some j) = read j := by
  unfold required
  rw [ifPresent]
  cases read j with
  | error _ => rfl
  | ok _ => rfl

theorem optional_some : optional read (some j) = option read j := by
  unfold optional
  rw [ifPresent]
  cases option read j with
  | error _ => rfl
  | ok _ => rfl

theorem option_of_ne_null (h : j ≠ .null) : option read j = (read j).map some := by
  unfold option
  split
  · exact absurd rfl h
  · rfl

/-- A member that must be there is read if it is there and can be read. -/
theorem required_eq_ok (member : Option Json) (a : α) :
    required read member = .ok a ↔ ∃ j, member = some j ∧ read j = .ok a := by
  cases member with
  | none => exact ⟨nofun, nofun⟩
  | some j =>
      rw [required_some]
      exact ⟨fun h => ⟨j, rfl, h⟩, fun ⟨_, hj, h⟩ => Option.some.inj hj ▸ h⟩

/-- A list is read if all its items can be read. -/
theorem list_eq_ok (l : List α) : list read j = .ok l ↔
    ∃ items, j = .array items ∧ List.Forall₂ (fun item a => read item = .ok a) items l := by
  unfold list
  split
  · rw [mapM_eq_ok]
    exact ⟨fun h => ⟨_, rfl, h⟩, fun ⟨_, hitems, h⟩ => Json.array.inj hitems ▸ h⟩
  · rename_i hother
    exact ⟨nofun, fun ⟨items, hitems, _⟩ => absurd hitems (hother items)⟩

end Decoder

namespace ReadsBack

variable {write : α → Json} {read : Decoder α} {fit : α → Prop}

-- A reader goes on with the value that was written.
theorem bind (h : ReadsBack write read fit) (a : α) (k : α → Except DecodeError β) (b : β) :
    (read (write a) >>= k) = .ok b ↔ fit a ∧ k a = .ok b := by
  rw [bind_eq_ok]
  constructor
  · rintro ⟨a', ha, hk⟩
    rcases (h a a').mp ha with ⟨hfit, rfl⟩
    exact ⟨hfit, hk⟩
  · rintro ⟨hfit, hk⟩
    exact ⟨a, (h a a).mpr ⟨hfit, rfl⟩, hk⟩

-- A reader makes something of the value that was written.
theorem map (h : ReadsBack write read fit) (a : α) (f : α → β) (b : β) :
    (read (write a)).map f = .ok b ↔ fit a ∧ b = f a := by
  have hmap : (read (write a)).map f = (read (write a) >>= fun a => .ok (f a)) := by
    cases read (write a) with
    | error _ => rfl
    | ok _ => rfl
  rw [hmap, h.bind, Except.ok.injEq, eq_comm (a := b)]

/-- Reading a member that must be there, and going on with it. -/
theorem required_bind (h : ReadsBack write read fit) (a : α) (k : α → Except DecodeError β)
    (b : β) : (Decoder.required read (some (write a)) >>= k) = .ok b ↔ fit a ∧ k a = .ok b := by
  rw [Decoder.required_some]
  exact h.bind a k b

/-- Reading a member that an object may lack, and going on with it. -/
theorem ifPresent_bind (h : ReadsBack write read fit) (a : α)
    (k : Option α → Except DecodeError β) (b : β) :
    (Decoder.ifPresent read (some (write a)) >>= k) = .ok b ↔ fit a ∧ k (some a) = .ok b := by
  have hpresent : (Decoder.ifPresent read (some (write a)) >>= k)
      = (read (write a) >>= fun a => k (some a)) := by
    rw [Decoder.ifPresent]
    cases read (write a) with
    | error _ => rfl
    | ok _ => rfl
  rw [hpresent, h.bind]

/-- A value that may be missing is read back unless it is there and is not. -/
theorem option (h : ReadsBack write read fit) (hnull : ∀ a, write a ≠ .null) :
    ReadsBack (Json.option write) (Decoder.option read) fun o => ∀ a, o = some a → fit a := by
  intro o b
  cases o with
  | none =>
      constructor
      · intro hb
        cases hb
        exact ⟨fun a ha => (by cases ha), rfl⟩
      · rintro ⟨_, rfl⟩
        rfl
  | some a =>
      rw [Json.option, Decoder.option_of_ne_null read _ (hnull a), h.map]
      simp only [Option.some.injEq, forall_eq']

/-- Reading a member that may be missing, and going on with it. -/
theorem optional_bind (h : ReadsBack write read fit) (hnull : ∀ a, write a ≠ .null)
    (o : Option α) (k : Option α → Except DecodeError β) (b : β) :
    (Decoder.optional read (some (Json.option write o)) >>= k) = .ok b ↔
      (∀ a, o = some a → fit a) ∧ k o = .ok b := by
  rw [Decoder.optional_some]
  exact (h.option hnull).bind o k b

/-- A list is read back if all its items are. -/
theorem list (h : ReadsBack write read fit) :
    ReadsBack (Json.list write) (Decoder.list read) fun l => ∀ a ∈ l, fit a := by
  intro l out
  have hknown := mapM_eq_ok_known (read ∘ write) (fun _ => True) fit id l out fun a _ b => by
    rw [and_true]
    exact h a b
  rw [List.map_id_fun, id] at hknown
  change (l.map write).mapM read = .ok out ↔ (∀ a ∈ l, fit a) ∧ out = l
  rw [List.mapM_map, ← hknown]
  exact ⟨fun hout => ⟨hout, fun _ _ => trivial⟩, fun hout => hout.1⟩

end ReadsBack

/-- A case without content is read back if no other case has its name. -/
theorem readsBack_enumeration (all : List α) (label : α → String)
    (h : ∀ a, all.find? (fun b => label b == label a) = some a) :
    ReadsBack (fun a => .string (label a)) (Decoder.enumeration all label) fun _ => True := by
  refine readsBack_of_eq fun a => ?_
  change Decoder.needed (all.find? fun b => label b == label a) = .ok a
  rw [h a]
  rfl

/-- A number is read back if it is below the bound. -/
theorem readsBack_nat (bound : Nat) :
    ReadsBack Json.nat (Decoder.natBelow bound) fun n => n < bound := by
  intro n m
  change (if 0 ≤ (n : Int) ∧ (n : Int) < bound then Except.ok (n : Int).toNat
    else .error DecodeError.malformed) = .ok m ↔ _
  by_cases hn : n < bound
  · rw [if_pos ⟨Int.natCast_nonneg n, Int.ofNat_lt.mpr hn⟩, Int.toNat_natCast, Except.ok.injEq]
    exact ⟨fun h => ⟨hn, h.symm⟩, fun h => h.2.symm⟩
  · rw [if_neg fun h => hn (Int.ofNat_lt.mp h.2)]
    exact ⟨fun h => (by cases h), fun h => absurd h.1 hn⟩

theorem readsBack_string : ReadsBack Json.string Decoder.string fun _ => True :=
  readsBack_of_eq fun _ => rfl

theorem readsBack_bool : ReadsBack Json.bool Decoder.bool fun _ => True :=
  readsBack_of_eq fun _ => rfl

theorem Name.readsBack {kind : Kind} :
    ReadsBack (@Name.toJson kind) Name.ofJson fun _ => True :=
  readsBack_of_eq fun _ => rfl

theorem TableName.readsBack : ReadsBack TableName.toJson TableName.ofJson fun _ => True :=
  readsBack_of_eq fun _ => rfl

theorem ColumnName.readsBack : ReadsBack ColumnName.toJson ColumnName.ofJson fun _ => True :=
  readsBack_of_eq fun _ => rfl

theorem ColumnType.readsBack : ReadsBack ColumnType.toJson ColumnType.ofJson fun _ => True :=
  readsBack_enumeration ColumnType.all ColumnType.label fun t => by cases t <;> rfl

theorem Operator.readsBack : ReadsBack Operator.toJson Operator.ofJson fun _ => True :=
  readsBack_enumeration Operator.all Operator.label fun o => by cases o <;> rfl

theorem Capability.readsBack : ReadsBack Capability.toJson Capability.ofJson fun _ => True :=
  readsBack_enumeration Capability.all Capability.label fun c => by cases c <;> rfl

-- A set is written as a list, and is the set of that list.
theorem CapabilitySet.readsBack :
    ReadsBack CapabilitySet.toJson CapabilitySet.ofJson fun _ => True := by
  intro s t
  have hlist := Capability.readsBack.list.map s.toList ofList t
  rw [ofList_toList] at hlist
  simp only [implies_true, true_and] at hlist ⊢
  exact hlist

theorem Connector.readsBack : ReadsBack Connector.toJson Connector.ofJson fun _ => True := by
  intro c d
  have hrecord : Decoder.record ["name", "capabilities", "clusters", "handle"] c.toJson
      = .ok [some c.name.toJson, some c.capabilities.toJson,
        some (.list Federation.Name.toJson c.clusters), some c.handle.toJson] := rfl
  rw [ofJson, hrecord, ok_bind]
  simp only [Name.readsBack.required_bind, CapabilitySet.readsBack.required_bind,
    Name.readsBack.list.required_bind, pure_eq_ok, implies_true, true_and]

end Federation
