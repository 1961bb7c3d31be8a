import Federation.Capability.Set

/-!
# What a Set Declares

A set of capabilities is a word whose bits are set and cleared one at a time. After any
calls it declares what a set would hold: a capability that was added and not taken out
since. All that can be asked of it follows from what it declares. In particular the list of
what is declared looks every bit that is set up in the listing of all capabilities, and
finds something there however many calls were made.

Calls are given latest first.

## Main definitions

* `CapabilitySet.Change`, `CapabilitySet.after`: The calls that change a set, and what they
  make of the set of a list.
* `CapabilitySet.LastInserted`: The last call about a capability adds it.
* `CapabilitySet.Faithful`: What is asked of a set is answered as calls have left it.

## Theorems

* `declares_perform`, `declares_after`: What a call and what any calls leave in a set.
* `mapM_ones`: Every bit that is set is found in the listing.
* `size_eq_length`: The bits that are set are as many as what is declared.
* `firstDeclared?_eq_some`: Which of several alternatives is the first.
* `after_faithful`: A set answers as a set should, after any calls.
-/

namespace Federation

namespace CapabilitySet

/-- A call that changes a set. -/
inductive Change where
  | insert (c : Capability)
  | remove (c : Capability)
deriving DecidableEq

/-- The capability that a call is about. -/
def Change.subject : Change → Capability
  | .insert c => c
  | .remove c => c

/-- The set after one more call. -/
def perform (s : CapabilitySet) : Change → CapabilitySet
  | .insert c => s.insert c
  | .remove c => s.remove c

/-- The set of a list after calls. -/
def after (start : List Capability) : List Change → CapabilitySet
  | [] => ofList start
  | call :: past => (after start past).perform call

/-- Whether the last call about a capability adds it. -/
def LastInserted (c : Capability) (calls : List Change) : Prop :=
  ∃ later before, calls = later ++ .insert c :: before ∧ ∀ call ∈ later, call.subject ≠ c

/-- Whether a set answers as calls on the set of a list have left it. -/
structure Faithful (start : List Capability) (calls : List Change) (s : CapabilitySet) :
    Prop where
  declares_iff : ∀ c, s.declares c = true ↔
    LastInserted c calls ∨ (c ∈ start ∧ .remove c ∉ calls)
  /-- No bit that is set lies outside the listing of all capabilities, in which it is looked
      up, -/
  lookedUp : s.ones.mapM (fun i => Capability.all[i]?) = some s.toList
  /-- so what is listed is what is declared, -/
  listed : ∀ c, c ∈ s.toList ↔ s.declares c = true
  /-- in order of declaration. -/
  inOrder : s.toList.Pairwise fun c d => c.bit < d.bit
  size_eq : ∀ l : List Capability, l.Nodup → (∀ c, c ∈ l ↔ s.declares c = true) →
    s.size = l.length
  isEmpty_iff : s.isEmpty = true ↔ ∀ c, s.declares c = false
  eq_iff : ∀ t : CapabilitySet, s = t ↔ ∀ c, s.declares c = t.declares c
  relisted : ofList s.toList = s
  sorted : (ofList start).toList = ascending start
  first_iff : ∀ alternatives c, s.firstDeclared? alternatives = some c ↔
    s.declares c = true ∧ ∃ before later, alternatives = before ++ c :: later ∧
      ∀ d ∈ before, s.declares d = false
  none_iff : ∀ alternatives, s.firstDeclared? alternatives = none ↔
    ∀ c ∈ alternatives, s.declares c = false

/-! ### Calls -/

-- A call about another capability says nothing, and one about this one says all.
theorem lastInserted_cons (c : Capability) (call : Change) (past : List Change) :
    LastInserted c (call :: past) ↔
      call = .insert c ∨ (call.subject ≠ c ∧ LastInserted c past) := by
  constructor
  · rintro ⟨later, before, hcalls, hlater⟩
    cases later with
    | nil => exact Or.inl (List.cons.inj hcalls).1
    | cons latest later =>
        rcases List.cons.inj hcalls with ⟨rfl, rfl⟩
        rcases List.forall_mem_cons.mp hlater with ⟨hlatest, hlater⟩
        exact Or.inr ⟨hlatest, later, before, rfl, hlater⟩
  · rintro (rfl | ⟨hcall, later, before, rfl, hlater⟩)
    · exact ⟨[], past, rfl, nofun⟩
    · exact ⟨call :: later, before, rfl, List.forall_mem_cons.mpr ⟨hcall, hlater⟩⟩

/-- What a call leaves in a set. -/
theorem declares_perform (s : CapabilitySet) (call : Change) (c : Capability) :
    (s.perform call).declares c = true ↔
      call = .insert c ∨ (call ≠ .remove c ∧ s.declares c = true) := by
  cases call with
  | insert d =>
      rw [perform, declares_insert, Bool.or_eq_true, decide_eq_true_eq, Change.insert.injEq,
        or_comm, eq_comm]
      simp
  | remove d =>
      rw [perform, declares_remove, Bool.and_eq_true, and_comm, ne_eq, Change.remove.injEq,
        eq_comm (a := d)]
      simp

/-- What any calls leave in the set of a list. -/
theorem declares_after (start : List Capability) (calls : List Change) (c : Capability) :
    (after start calls).declares c = true ↔
      LastInserted c calls ∨ (c ∈ start ∧ .remove c ∉ calls) := by
  induction calls with
  | nil =>
      rw [after, declares_ofList]
      simp [LastInserted]
  | cons call past ih =>
      rw [after, declares_perform, ih, lastInserted_cons, List.mem_cons, not_or]
      by_cases hcall : call.subject = c
      · cases call with
        | insert d =>
            cases hcall
            exact iff_of_true (Or.inl rfl) (Or.inl (Or.inl rfl))
        | remove d =>
            cases hcall
            simp [Change.subject]
      · -- A call about another capability changes nothing.
        have hinsert : call ≠ .insert c := fun h => hcall (h ▸ rfl)
        have hremove : call ≠ .remove c := fun h => hcall (h ▸ rfl)
        simp only [hinsert, hremove, hremove.symm, hcall, ne_eq, not_false_eq_true, false_or,
          true_and]

/-! ### Answers -/

/-- Every bit that is set is found in the listing of all capabilities. -/
theorem mapM_ones (s : CapabilitySet) :
    s.ones.mapM (fun i => Capability.all[i]?) = some s.toList := by
  -- So it is with any places within the listing.
  suffices h : ∀ (places : List Nat) (hp : ∀ i ∈ places, i < Capability.all.length),
      places.mapM (fun i => Capability.all[i]?)
        = some (places.pmap (fun i h => Capability.all[i]) hp) from
    h s.ones fun _ => lt_of_mem_ones
  intro places
  induction places with
  | nil => exact fun _ => rfl
  | cons i rest ih =>
      intro hp
      rcases List.forall_mem_cons.mp hp with ⟨hi, hrest⟩
      rw [List.mapM_cons, List.getElem?_eq_getElem hi, ih hrest]
      rfl

-- Bits are counted by going through them.
theorem cpopNatRec_eq_countP (w : BitVec 32) (n : Nat) :
    w.cpopNatRec n 0 = (List.range n).countP w.getLsbD := by
  induction n with
  | zero => rfl
  | succ n ih =>
      rw [BitVec.cpopNatRec_succ, BitVec.cpopNatRec_add, ih, List.range_succ, List.countP_append,
        List.countP_singleton]
      cases w.getLsbD n <;> rfl

/-- The bits that are set are as many as what is declared. -/
theorem size_eq_length (s : CapabilitySet) : s.size = s.toList.length := by
  rw [size, BitVec.toNat_cpop, cpopNatRec_eq_countP, List.countP_eq_length_filter, toList,
    List.length_pmap, ones]

theorem isEmpty_iff (s : CapabilitySet) : s.isEmpty = true ↔ ∀ c, s.declares c = false := by
  have hempty : s.isEmpty = true ↔ s = empty := by
    rw [isEmpty, beq_iff_eq]
    cases s
    simp [empty]
  rw [hempty]
  constructor
  · rintro rfl c
    exact declares_empty c
  · intro h
    exact ext_declares fun c => (h c).trans (declares_empty c).symm

/-- Which of several alternatives is the first that is declared. -/
theorem firstDeclared?_eq_some (s : CapabilitySet) (alternatives : List Capability)
    (c : Capability) : s.firstDeclared? alternatives = some c ↔
      s.declares c = true ∧ ∃ before later, alternatives = before ++ c :: later ∧
        ∀ d ∈ before, s.declares d = false := by
  rw [firstDeclared?, List.find?_eq_some_iff_append]
  simp only [Bool.not_eq_true']

theorem firstDeclared?_eq_none (s : CapabilitySet) (alternatives : List Capability) :
    s.firstDeclared? alternatives = none ↔ ∀ c ∈ alternatives, s.declares c = false := by
  rw [firstDeclared?, List.find?_eq_none]
  simp only [Bool.not_eq_true]

/-- A set answers as a set should, after any calls on the set of any list. -/
theorem after_faithful (start : List Capability) (calls : List Change) :
    Faithful start calls (after start calls) := by
  constructor
  case declares_iff => exact declares_after start calls
  case lookedUp => exact mapM_ones _
  case listed => exact fun c => mem_toList
  case inOrder => exact (toList_ascending _).imp fun h => Nat.compare_eq_lt.mp h
  case size_eq =>
    intro l hl hmem
    have hperm : (after start calls).toList.Perm l :=
      (List.perm_ext_iff_of_nodup (toList_ascending _).nodup hl).mpr fun c => by
        rw [mem_toList, hmem]
    rw [size_eq_length, hperm.length_eq]
  case isEmpty_iff => exact isEmpty_iff _
  case eq_iff => exact fun t => ⟨fun h c => h ▸ rfl, ext_declares⟩
  case relisted => exact ofList_toList _
  case sorted => exact toList_ofList start
  case first_iff => exact firstDeclared?_eq_some _
  case none_iff => exact firstDeclared?_eq_none _

example : (after [.insert, .scan] [.remove .scan, .insert .project, .remove .project]).toList
    = [.project, .insert] := by decide

end CapabilitySet

end Federation
