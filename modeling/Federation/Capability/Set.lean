import Federation.Ascending
import Federation.Capability
import Federation.Text.Listing

/-!
# Sets of Capabilities

What one connector declares, kept in a word with one bit for each capability and
a few to spare. Bits are read back through the listing of all capabilities, in
which a spare bit has no place. So none of them may ever be set: then every bit
that is set stands for a capability, and two sets are equal when they declare the
same. That they are clear belongs to the type.

## Main definitions

* `CapabilitySet`: The bits; `declares`, `insert` and `remove` address one.
* `CapabilitySet.ones`, `CapabilitySet.toList`: The places of the bits that are set,
  and what is found there: all that is declared, in order of declaration.
* `CapabilitySet.firstDeclared?`: Which of several alternatives a connector
  would use; the order of the alternatives decides, not that of the set.

## Theorems

* `CapabilitySet.declares_insert`, `CapabilitySet.declares_remove`: One bit
  changes and no other.
* `CapabilitySet.declares_ofList`: The set of a list declares what is listed.
* `CapabilitySet.ext_declares`: A set is what it declares.
* `CapabilitySet.lt_of_mem_ones`: No bit that is set lies outside the listing.
* `CapabilitySet.mem_toList`, `CapabilitySet.toList_ascending`: What is listed, and
  in which order.
* `CapabilitySet.ofList_toList`, `CapabilitySet.toList_ofList`: From a set to a list
  and back, and the other way round.
-/

namespace Federation

/-- A set of capabilities, one bit for each in a word of thirty-two. -/
structure CapabilitySet where
  bits : BitVec 32
  /-- The bits that are to spare are clear. -/
  spare : ∀ i, Capability.count ≤ i → bits.getLsbD i = false
deriving DecidableEq

namespace CapabilitySet

open Capability (count)

/-- The set that declares nothing. -/
def empty : CapabilitySet := ⟨0, fun _ _ => BitVec.getLsbD_zero⟩

instance : EmptyCollection CapabilitySet := ⟨empty⟩

instance : Inhabited CapabilitySet := ⟨empty⟩

/-- Whether a capability is in the set. -/
def declares (s : CapabilitySet) (c : Capability) : Bool := s.bits.getLsbD c.bit

/-- A word with the bit of a capability has none of those that are to spare. -/
theorem getLsbD_twoPow_spare (c : Capability) (i : Nat) (h : count ≤ i) :
    (BitVec.twoPow 32 c.bit).getLsbD i = false := by
  have hbit : ¬(c.bit : Nat) = i := Nat.ne_of_lt (Nat.lt_of_lt_of_le c.bit.isLt h)
  simp [hbit]

/-- The set with a capability added. -/
def insert (s : CapabilitySet) (c : Capability) : CapabilitySet where
  bits := s.bits ||| BitVec.twoPow 32 c.bit
  spare i h := by rw [BitVec.getLsbD_or, s.spare i h, getLsbD_twoPow_spare c i h]; rfl

/-- The set with a capability taken out. -/
def remove (s : CapabilitySet) (c : Capability) : CapabilitySet where
  bits := s.bits &&& ~~~BitVec.twoPow 32 c.bit
  spare i h := by rw [BitVec.getLsbD_and, s.spare i h]; rfl

/-- The set of a list of capabilities. -/
def ofList (l : List Capability) : CapabilitySet := l.foldl insert empty

/-- The places of the bits that are set, smallest first. -/
def ones (s : CapabilitySet) : List Nat := (List.range 32).filter s.bits.getLsbD

/-- No bit that is set lies outside the listing of all capabilities. -/
theorem lt_of_mem_ones {s : CapabilitySet} {i : Nat} (h : i ∈ s.ones) :
    i < Capability.all.length := by
  have hset : s.bits.getLsbD i = true := (List.mem_filter.1 h).2
  refine Nat.lt_of_not_le fun hi => ?_
  rw [s.spare i hi] at hset
  cases hset

/-- What is declared, in order of declaration: each bit that is set is looked up. -/
def toList (s : CapabilitySet) : List Capability :=
  s.ones.pmap (fun i h => Capability.all[i]) fun _ h => lt_of_mem_ones h

/-- How many bits are set. -/
def size (s : CapabilitySet) : Nat := s.bits.cpop.toNat

/-- Whether no bit is set. -/
def isEmpty (s : CapabilitySet) : Bool := s.bits == 0

/-- The first of several alternatives that is declared. -/
def firstDeclared? (s : CapabilitySet) (alternatives : List Capability) : Option Capability :=
  alternatives.find? s.declares

/-- Whether one of several alternatives is declared. -/
def declaresAny (s : CapabilitySet) (alternatives : List Capability) : Bool :=
  (s.firstDeclared? alternatives).isSome

/-- The tags of what is declared, in braces. -/
def text (s : CapabilitySet) : String := "\x7b" ++ commaList Capability.tag s.toList ++ "\x7d"

@[simp] theorem declares_empty (c : Capability) : empty.declares c = false := by
  simp [declares, empty]

/-- The word with one bit set declares one capability. -/
theorem getLsbD_twoPow_bit (c d : Capability) :
    (BitVec.twoPow 32 c.bit).getLsbD d.bit = decide (d = c) := by
  have hc : (c.bit : Nat) < 32 := Nat.lt_trans c.bit.isLt (by decide)
  by_cases h : d = c
  · simp [h, hc]
  · have hbit : ¬(d.bit : Nat) = (c.bit : Nat) := fun hb =>
      h (Capability.bit_injective (Fin.ext hb))
    simp [h, hc, Ne.symm hbit]

@[simp] theorem declares_insert (s : CapabilitySet) (c d : Capability) :
    (s.insert c).declares d = (s.declares d || decide (d = c)) := by
  simp only [declares, insert, BitVec.getLsbD_or, getLsbD_twoPow_bit]

@[simp] theorem declares_remove (s : CapabilitySet) (c d : Capability) :
    (s.remove c).declares d = (s.declares d && !decide (d = c)) := by
  have hd : (d.bit : Nat) < 32 := Nat.lt_trans d.bit.isLt (by decide)
  simp only [declares, remove, BitVec.getLsbD_and, BitVec.getLsbD_not, getLsbD_twoPow_bit, hd,
    decide_true, Bool.true_and]

/-- The set of a list declares what is listed. -/
theorem declares_ofList (l : List Capability) (c : Capability) :
    (ofList l).declares c = true ↔ c ∈ l := by
  -- What is collected so far is declared besides the rest.
  suffices h : ∀ s : CapabilitySet,
      (l.foldl insert s).declares c = true ↔ s.declares c = true ∨ c ∈ l by
    simpa [ofList] using h empty
  induction l with
  | nil => intro s; simp
  | cons a rest ih => intro s; simp [ih, or_assoc]

/-- A set is what it declares. -/
theorem ext_declares {s t : CapabilitySet} (h : ∀ c, s.declares c = t.declares c) : s = t := by
  have hbits : s.bits = t.bits := by
    refine BitVec.eq_of_getLsbD_eq fun i _ => ?_
    by_cases hi : i < Capability.all.length
    · have hc := h Capability.all[i]
      rwa [declares, declares, Capability.bit_getElem_all] at hc
    · rw [s.spare i (Nat.not_lt.1 hi), t.spare i (Nat.not_lt.1 hi)]
  cases s
  cases t
  simp_all

theorem mem_ones {s : CapabilitySet} {i : Nat} : i ∈ s.ones ↔ s.bits.getLsbD i = true := by
  rw [ones, List.mem_filter, List.mem_range]
  exact ⟨fun h => h.2, fun h => ⟨BitVec.lt_of_getLsbD h, h⟩⟩

/-- What is listed is what is declared. -/
theorem mem_toList {s : CapabilitySet} {c : Capability} : c ∈ s.toList ↔ s.declares c = true := by
  rw [toList, List.mem_pmap, declares]
  constructor
  · rintro ⟨i, hi, rfl⟩
    rw [Capability.bit_getElem_all]
    exact mem_ones.1 hi
  · intro h
    have hc := Capability.getElem?_all_bit c
    exact ⟨c.bit, mem_ones.2 h, (List.getElem?_eq_some_iff.1 hc).2⟩

/-- What is listed is in order of declaration. -/
theorem toList_ascending (s : CapabilitySet) : Ascending s.toList := by
  refine List.Pairwise.pmap (List.pairwise_lt_range.filter _) _ fun i hi j hj hlt => ?_
  show compare Capability.all[i].bit.val Capability.all[j].bit.val = .lt
  rw [Capability.bit_getElem_all, Capability.bit_getElem_all]
  exact Nat.compare_eq_lt.2 hlt

/-- A set is the set of what it lists. -/
theorem ofList_toList (s : CapabilitySet) : ofList s.toList = s := by
  refine ext_declares fun c => Bool.eq_iff_iff.2 ?_
  rw [declares_ofList, mem_toList]

/-- The set of a list lists its members, sorted and without repetitions. -/
theorem toList_ofList (l : List Capability) : (ofList l).toList = ascending l := by
  refine Ascending.ext (toList_ascending _) (ascending_pairwise l) fun c => ?_
  rw [mem_toList, declares_ofList, mem_ascending]

end CapabilitySet

end Federation
